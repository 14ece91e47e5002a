import Mathlib.Data.List.Basic

/-!
# Words and parentheses

A text with parentheses falls into words (`words`): what stands between blanks, where a blank inside of parentheses does
not count. In a balanced text (`Balanced`) a blank outside of all parentheses cuts the words (`words_append_blank`), and
parentheses around such a text, with a plain word before them or not, make one word of it (`Solid.enclose`). A list of
such words is known by the text in which they are spaced out (`words_spaced`).
-/

namespace SolverClient.Text

/-! ## Balanced texts -/

/-- Every parenthesis has its partner. -/
inductive Balanced : List Char → Prop
  | nil : Balanced []
  | cons {c : Char} {s : List Char} (hopen : c ≠ '(') (hclose : c ≠ ')') (hs : Balanced s) : Balanced (c :: s)
  | enclosed {s t : List Char} (hs : Balanced s) (ht : Balanced t) : Balanced ('(' :: (s ++ ')' :: t))

/-- Neither blanks nor parentheses. -/
def Plain (s : List Char) : Prop := ∀ c ∈ s, c ≠ ' ' ∧ c ≠ '(' ∧ c ≠ ')'

instance (s : List Char) : Decidable (Plain s) := List.decidableBAll (fun c => c ≠ ' ' ∧ c ≠ '(' ∧ c ≠ ')') s

/-- A text in parentheses, after the name of a function if there is one. -/
def enclose (name s : List Char) : List Char := name ++ '(' :: (s ++ [')'])

section Balanced

variable {s t name : List Char} {c : Char}

theorem plain_nil : Plain [] := by decide

theorem Plain.append (hs : Plain s) (ht : Plain t) : Plain (s ++ t) := by
  intro c hc
  rcases List.mem_append.1 hc with hc | hc
  · exact hs c hc
  · exact ht c hc

theorem Balanced.append (hs : Balanced s) (ht : Balanced t) : Balanced (s ++ t) := by
  induction hs with
  | nil => exact ht
  | cons hopen hclose _ ih => exact .cons hopen hclose ih
  | enclosed hs _ _ ih =>
    rw [List.cons_append, List.append_assoc, List.cons_append]
    exact .enclosed hs ih

theorem Plain.balanced (h : Plain s) : Balanced s := by
  induction s with
  | nil => exact .nil
  | cons c s ih =>
    obtain ⟨-, hopen, hclose⟩ := h c List.mem_cons_self
    exact .cons hopen hclose (ih fun c' hc' => h c' (List.mem_cons_of_mem _ hc'))

theorem Balanced.enclose (hname : Balanced name) (hs : Balanced s) : Balanced (enclose name s) :=
  hname.append (.enclosed hs .nil)

/-- A text in parentheses is known by its name and what is inside. -/
theorem enclose_inj {name' s' : List Char} (hname : Plain name) (hname' : Plain name') :
    enclose name s = enclose name' s' ↔ name = name' ∧ s = s' := by
  constructor
  · intro h
    have hleft : ∀ (name s : List Char), Plain name → (enclose name s).takeWhile (· != '(') = name := by
      intro name s hname
      have hall : ∀ c ∈ name, (c != '(') = true := fun c hc => bne_iff_ne.2 (hname c hc).2.1
      rw [enclose, List.takeWhile_append_of_pos hall]
      simp
    have heq : name = name' := by rw [← hleft name s hname, h, hleft name' s' hname']
    subst heq
    have hinner := List.append_cancel_left h
    exact ⟨rfl, List.append_cancel_right (List.cons.inj hinner).2⟩
  · rintro ⟨rfl, rfl⟩
    rfl

theorem Plain.ne_enclose (hs : Plain s) (name t : List Char) : s ≠ enclose name t := by
  rintro rfl
  exact (hs '(' (by simp [enclose])).2.1 rfl

end Balanced

/-! ## Words -/

/-- The words of a text at whose start a number of parentheses are open. -/
def wordsFrom : (depth : Nat) → List Char → List (List Char)
  | _, [] => [[]]
  | depth, c :: s =>
    if c = ' ' ∧ depth = 0 then [] :: wordsFrom 0 s
    else (wordsFrom (if c = '(' then depth + 1 else if c = ')' then depth - 1 else depth) s).modifyHead (c :: ·)

/-- What stands between the blanks of a text that are outside of all parentheses. -/
def words (s : List Char) : List (List Char) := wordsFrom 0 s

/-- The text with blanks between the given words. -/
def spaced (ws : List (List Char)) : List Char := [' '].intercalate ws

/-- A balanced text that is one word. -/
def Solid (s : List Char) : Prop := Balanced s ∧ words s = [s]

section Words

variable {s t w name : List Char} {ws ws' : List (List Char)} {depth : Nat}

theorem wordsFrom_ne_nil (depth : Nat) (s : List Char) : wordsFrom depth s ≠ [] := by
  induction s generalizing depth with
  | nil => exact List.cons_ne_nil _ _
  | cons c s ih =>
    rw [wordsFrom]
    split
    · exact List.cons_ne_nil _ _
    · simpa using ih _

theorem wordsFrom_open (depth : Nat) (s : List Char) :
    wordsFrom depth ('(' :: s) = (wordsFrom (depth + 1) s).modifyHead ('(' :: ·) := by
  simp [wordsFrom]

theorem wordsFrom_close (depth : Nat) (s : List Char) :
    wordsFrom (depth + 1) (')' :: s) = (wordsFrom depth s).modifyHead (')' :: ·) := by
  simp [wordsFrom]

/-- Inside of parentheses a balanced text belongs to the word that goes on there. -/
theorem wordsFrom_append (hs : Balanced s) (depth : Nat) (t : List Char) :
    wordsFrom (depth + 1) (s ++ t) = (wordsFrom (depth + 1) t).modifyHead (s ++ ·) := by
  induction hs generalizing depth t with
  | nil => cases h : wordsFrom (depth + 1) t <;> simp [h]
  | cons hopen hclose _ ih => simp [wordsFrom, hopen, hclose, ih, Function.comp_def]
  | enclosed _ _ ihs iht =>
    rw [List.cons_append, List.append_assoc, List.cons_append, wordsFrom_open, ihs, wordsFrom_close, iht]
    simp [Function.comp_def]

theorem words_append_plain (hs : Plain s) (t : List Char) : words (s ++ t) = (words t).modifyHead (s ++ ·) := by
  induction s with
  | nil => cases h : words t <;> simp [h]
  | cons c s ih =>
    obtain ⟨hblank, hopen, hclose⟩ := hs c List.mem_cons_self
    have ih := ih fun c' hc' => hs c' (List.mem_cons_of_mem _ hc')
    simp only [words] at ih ⊢
    simp [wordsFrom, hblank, hopen, hclose, ih, Function.comp_def]

/-- **A blank after a balanced text cuts the words.** -/
theorem words_append_blank (hs : Balanced s) (t : List Char) : words (s ++ ' ' :: t) = words s ++ words t := by
  have happend : ∀ (f : List Char → List Char) (s : List Char),
      (words s).modifyHead f ++ words t = (words s ++ words t).modifyHead f := by
    intro f s
    cases h : words s with
    | nil => exact absurd h (wordsFrom_ne_nil 0 s)
    | cons w ws => rfl
  unfold words at happend ⊢
  induction hs with
  | nil => simp [wordsFrom]
  | @cons c s hopen hclose _ ih =>
    by_cases hblank : c = ' '
    · simp [wordsFrom, hblank, ih]
    · simp [wordsFrom, hblank, hopen, hclose, ih, happend]
  | @enclosed s' t' hs' _ _ ih =>
    rw [List.cons_append, List.append_assoc, List.cons_append, wordsFrom_open, wordsFrom_append hs', wordsFrom_close,
      ih, wordsFrom_open, wordsFrom_append hs', wordsFrom_close]
    simp only [List.modifyHead_modifyHead, happend]

theorem Plain.solid (hs : Plain s) : Solid s :=
  ⟨hs.balanced, by simpa [words, wordsFrom] using words_append_plain hs []⟩

/-- Parentheses around a balanced text make one word of it. -/
theorem Solid.enclose (hname : Plain name) (hs : Balanced s) : Solid (enclose name s) := by
  refine ⟨hname.balanced.enclose hs, ?_⟩
  rw [Text.enclose, words_append_plain hname, words, wordsFrom_open, wordsFrom_append hs, wordsFrom_close]
  simp [wordsFrom]

theorem words_cons (hw : Solid w) (t : List Char) : words (w ++ ' ' :: t) = w :: words t := by
  rw [words_append_blank hw.1, hw.2, List.singleton_append]

theorem spaced_singleton (w : List Char) : spaced [w] = w := by simp [spaced]

theorem spaced_cons (w : List Char) (h : ws ≠ []) : spaced (w :: ws) = w ++ ' ' :: spaced ws := by
  cases ws with
  | nil => exact absurd rfl h
  | cons w' ws => simp [spaced, List.intercalate_cons_cons]

theorem spaced_append (h : ws ≠ []) (h' : ws' ≠ []) : spaced (ws ++ ws') = spaced ws ++ ' ' :: spaced ws' := by
  induction ws with
  | nil => exact absurd rfl h
  | cons w ws ih =>
    cases ws with
    | nil => rw [List.singleton_append, spaced_cons w h', spaced_singleton]
    | cons w' ws =>
      rw [List.cons_append, spaced_cons w (by simp), ih (by simp), spaced_cons w (by simp), List.append_assoc,
        List.cons_append]

/-- **Words that are spaced out are found again.** -/
theorem words_spaced (h : ws ≠ []) (hws : ∀ w ∈ ws, Solid w) : words (spaced ws) = ws := by
  induction ws with
  | nil => exact absurd rfl h
  | cons w ws ih =>
    have hw := hws w List.mem_cons_self
    cases ws with
    | nil => rw [spaced_singleton, hw.2]
    | cons w' ws =>
      rw [spaced_cons w (by simp), words_cons hw, ih (by simp) fun v hv => hws v (List.mem_cons_of_mem _ hv)]

theorem spaced_inj (h : ws ≠ []) (h' : ws' ≠ []) (hws : ∀ w ∈ ws, Solid w) (hws' : ∀ w ∈ ws', Solid w) :
    spaced ws = spaced ws' ↔ ws = ws' := by
  constructor
  · intro heq
    rw [← words_spaced h hws, heq, words_spaced h' hws']
  · exact congrArg spaced

theorem balanced_spaced (hws : ∀ w ∈ ws, Solid w) : Balanced (spaced ws) := by
  induction ws with
  | nil => exact .nil
  | cons w ws ih =>
    have hw := (hws w List.mem_cons_self).1
    have ih := ih fun v hv => hws v (List.mem_cons_of_mem _ hv)
    cases ws with
    | nil => rwa [spaced_singleton]
    | cons w' ws =>
      rw [spaced_cons w (by simp)]
      exact hw.append (.cons (by decide) (by decide) ih)

end Words

/-- A blank in parentheses cuts nothing. -/
example : words "(a + b) * !(c & d)".toList = ["(a + b)".toList, "*".toList, "!(c & d)".toList] := by decide

end SolverClient.Text
