import SolverClient.Proofs.MatrixName.Exact
import SolverClient.Proofs.Solution.Exact
import SolverClient.Proofs.Word
import SolverClient.Solution.InWords

/-!
# When the counts of a reader are words

The counts of a name are words, but their product need not be. Where it is, so is the index of each cell, and a row of
cells is cut as without bounds (`Solution.reshapeInWords?_eq`). An entry whose cells cannot be counted is **oversized**
(`Solution.Oversized`). Reading comes to nothing exactly if it comes to such an entry, which it does unless a name has
come twice before (`Solution.collectInWords?_cases`); else its answer is the one without bounds
(`Solution.ofRecordsInWords?_exact`, `Reply.solutionsInWords?_exact`).
-/

namespace SolverClient

/-! ## One matrix -/

/-- **If the cells can be counted in words, so can their indices.** -/
theorem unflattenInWords?_eq {α : Type} (flat : List (Option α)) {rows cols : Nat} (h : rows * cols < Word.bound64) :
    unflattenInWords? flat rows cols = some (unflatten flat rows cols) := by
  refine mapM_eq_some_map fun r hr => mapM_eq_some_map fun c hc => ?_
  obtain ⟨hbefore, hindex⟩ := Grid.index_in_words h (List.mem_range.1 hr) (List.mem_range.1 hc)
  rw [Word.mul?_of_lt hbefore]
  exact congrArg (· >>= _) (Word.add?_of_lt hindex)

namespace Solution

open Record

/-- A row of cells under a name with a shape whose cells cannot be counted in words. -/
def Oversized (entry : String × SolvedValue) : Prop :=
  ∃ cells m, entry.2 = .sequence cells ∧ MatrixName.ofText? entry.1 = some m ∧ Word.bound64 ≤ m.rows * m.cols

theorem reshapeInWords?_eq_none {entry : String × SolvedValue} (h : Oversized entry) :
    reshapeInWords? entry = none := by
  obtain ⟨name, value⟩ := entry
  obtain ⟨cells, m, rfl, hm, hle⟩ := h
  simp only [reshapeInWords?, hm, Word.mul?_of_le hle]
  rfl

/-- **An entry that is not oversized is reshaped as without bounds.** -/
theorem reshapeInWords?_eq {entry : String × SolvedValue} (h : ¬ Oversized entry) :
    reshapeInWords? entry = some (reshape entry) := by
  obtain ⟨name, value⟩ := entry
  cases value with
  | scalar cell => rfl
  | matrix rows => rfl
  | sequence cells =>
    cases hm : MatrixName.ofText? name with
    | none => simp only [reshapeInWords?, reshape, hm]
    | some m =>
      have hlt : m.rows * m.cols < Word.bound64 := Nat.not_le.1 fun hle => h ⟨cells, m, rfl, hm, hle⟩
      simp only [reshapeInWords?, reshape, hm, Word.mul?_of_lt hlt, unflattenInWords?_eq cells hlt]
      rfl

/-! ## All entries -/

/-- Putting entries behind those that are done comes to an oversized one: no name has come twice before. -/
def Reaches (entries : List (String × SolvedValue)) (done : OrderedMap SolvedValue) : Prop :=
  ∃ before entry after, entries = before ++ entry :: after ∧ Oversized entry ∧
    (OrderedMap.keys (done ++ before.map reshape)).Nodup

section Collect

variable {entry : String × SolvedValue} {entries rest : List (String × SolvedValue)} {done : OrderedMap SolvedValue}

/-- Past an entry that is not oversized, what is to come is to come behind it. -/
theorem reaches_cons (h : ¬ Oversized entry) :
    Reaches (entry :: rest) done ↔ Reaches rest (done ++ [reshape entry]) := by
  constructor
  · rintro ⟨before, e, after, hsplit, he, hn⟩
    cases before with
    | nil =>
      cases hsplit
      exact absurd he h
    | cons _ before =>
      cases hsplit
      rw [List.map_cons, List.append_cons] at hn
      exact ⟨before, e, after, rfl, he, hn⟩
  · rintro ⟨before, e, after, rfl, he, hn⟩
    refine ⟨entry :: before, e, after, rfl, he, ?_⟩
    rwa [List.map_cons, List.append_cons]

/-- Behind names of which one comes twice nothing is reached. -/
theorem not_reaches_of_not_nodup (h : ¬ done.keys.Nodup) : ¬ Reaches entries done := by
  rintro ⟨before, e, after, -, -, hn⟩
  rw [OrderedMap.keys, List.map_append] at hn
  exact h (List.nodup_append.1 hn).1

/-- **Collecting comes to nothing if it comes to an oversized entry**, and else to what it comes to without bounds. -/
theorem collectInWords?_cases (hn : done.keys.Nodup) :
    (Reaches entries done ∧ collectInWords? entries done = none) ∨
      (¬ Reaches entries done ∧ collectInWords? entries done = some (collect (entries.map reshape) done)) := by
  induction entries generalizing done with
  | nil =>
    refine Or.inr ⟨?_, rfl⟩
    rintro ⟨before, e, after, hsplit, -, -⟩
    exact absurd hsplit (by simp)
  | cons entry rest ih =>
    by_cases hsize : Oversized entry
    · refine Or.inl ⟨⟨[], entry, rest, rfl, hsize, by simpa using hn⟩, ?_⟩
      rw [collectInWords?, reshapeInWords?_eq_none hsize]
    rw [reaches_cons hsize, collectInWords?, reshapeInWords?_eq hsize, List.map_cons]
    obtain ⟨name, value⟩ := reshape entry
    simp only [collect]
    by_cases hagain : done.contains name = true
    · rw [if_pos hagain, if_pos hagain]
      refine Or.inr ⟨not_reaches_of_not_nodup fun hnodup => ?_, rfl⟩
      exact (OrderedMap.nodup_keys_append_singleton.1 hnodup).2 (OrderedMap.contains_iff.1 hagain)
    · rw [if_neg hagain, if_neg hagain]
      have hnew : name ∉ done.keys := fun hmem => hagain (OrderedMap.contains_iff.2 hmem)
      exact ih (OrderedMap.nodup_keys_append_singleton.2 ⟨hn, hnew⟩)

end Collect

/-! ## All records -/

section Records

variable {records : List Json} {entries : OrderedMap SolvedValue} {outcome : Except SolutionError Solution}

/-- The records can be gathered, and what they give comes to an oversized entry. -/
def Overflows (records : List Json) : Prop := ∃ entries, gather 0 [] records = .ok entries ∧ Reaches entries []

/-- Records that are gathered overflow as their entries do. -/
theorem overflows_iff (h : gather 0 [] records = .ok entries) : Overflows records ↔ Reaches entries [] := by
  constructor
  · rintro ⟨out, hout, hreach⟩
    rw [h] at hout
    cases hout
    exact hreach
  · exact fun hreach => ⟨entries, h, hreach⟩

/-- **Reading a list of records comes to nothing if it overflows**, and else to what it comes to without bounds. -/
theorem ofRecordsInWords?_cases (records : List Json) :
    (Overflows records ∧ ofRecordsInWords? records = none) ∨
      (¬ Overflows records ∧ ofRecordsInWords? records = some (ofRecords records)) := by
  cases hgather : gather 0 [] records with
  | error e =>
    refine Or.inr ⟨?_, by rw [ofRecordsInWords?, ofRecords, hgather]; rfl⟩
    rintro ⟨entries, hentries, -⟩
    rw [hgather] at hentries
    cases hentries
  | ok entries =>
    rw [overflows_iff hgather]
    simp only [ofRecordsInWords?, ofRecords, hgather, Except.ok_bind]
    rcases @collectInWords?_cases entries [] List.nodup_nil with ⟨hreach, hnone⟩ | ⟨hreach, hsome⟩
    · exact Or.inl ⟨hreach, by rw [hnone]; rfl⟩
    · refine Or.inr ⟨hreach, ?_⟩
      rw [hsome]
      cases collect (entries.map reshape) [] <;> rfl

theorem ofRecordsInWords?_of_overflows (h : Overflows records) : ofRecordsInWords? records = none :=
  (ofRecordsInWords?_cases records).elim And.right fun hwords => absurd h hwords.1

theorem ofRecordsInWords?_of_not_overflows (h : ¬ Overflows records) :
    ofRecordsInWords? records = some (ofRecords records) :=
  (ofRecordsInWords?_cases records).elim (fun hover => absurd hover.1 h) And.right

/-- What a reader with counts in words gives is what the reader without bounds gives. -/
theorem ofRecordsInWords?_eq_some (h : ofRecordsInWords? records = some outcome) :
    ¬ Overflows records ∧ ofRecords records = outcome := by
  rcases ofRecordsInWords?_cases records with ⟨-, hnone⟩ | ⟨hwords, hsome⟩
  · rw [hnone] at h
    cases h
  · rw [hsome] at h
    exact ⟨hwords, Option.some.inj h⟩

/-- A gathered row of cells ends at the greatest position at the latest. -/
theorem length_le_of_gather {name : String} {cells : List Cell} (h : gather 0 [] records = .ok entries)
    (hmem : (name, .sequence cells) ∈ entries) : cells.length ≤ maxPosition + 1 := by
  obtain ⟨rs, hp, -, hg⟩ := exists_of_gather h
  obtain ⟨last, -, hlast⟩ := Option.map_eq_some_iff.1 (hg.valueOf?_of_mem hmem)
  obtain rfl : Record.cells (own rs name) = cells := by
    split at hlast
    · exact SolvedValue.sequence.inj hlast
    · cases hlast
  rw [Record.cells, List.length_map, List.length_range]
  by_contra hlong
  obtain ⟨r, hr, p, hposition, hle⟩ := lt_extent.1 (Nat.not_le.1 hlong)
  obtain ⟨v, -, hread⟩ := exists_of_forall₂ hp r (mem_own.1 hr).1
  obtain ⟨-, -, -, -, -, -, hmax, -⟩ := ofJson_eq_ok.1 hread
  exact absurd (hmax p hposition) (Nat.not_le.2 hle)

/-- **When a list of records can be read with counts in words.** The rows and columns that the name of a gathered row
of cells carries are words, and so is the number of its cells. If the product of the rows and columns is a word, so are
all counts up to the index of each cell; it need not be one. Reading comes to nothing exactly if it comes to a name
whose product is none, and else to what the records give without bounds. -/
theorem ofRecordsInWords?_exact (records : List Json) :
    (∀ entries, gather 0 [] records = .ok entries → ∀ name cells m, (name, .sequence cells) ∈ entries →
      MatrixName.ofText? name = some m → cells.length ≤ maxPosition + 1 ∧
        (m.rows < Word.bound64 ∧ m.cols < Word.bound64) ∧
        (m.rows * m.cols < Word.bound64 → ∀ r c, r < m.rows → c < m.cols →
          r * m.cols < Word.bound64 ∧ r * m.cols + c < Word.bound64)) ∧
    (ofRecordsInWords? records = none ↔ Overflows records) ∧
    (ofRecordsInWords? records = some (ofRecords records) ↔ ¬ Overflows records) := by
  constructor
  · intro entries hgather name cells m hmem hm
    obtain ⟨_, _, hspelt⟩ := MatrixName.ofText?_eq_some_iff.1 hm
    refine ⟨length_le_of_gather hgather hmem, ⟨hspelt.rows_lt, hspelt.cols_lt⟩, fun hlt r c hr hc => ?_⟩
    exact Grid.index_in_words hlt hr hc
  · rcases ofRecordsInWords?_cases records with ⟨h, heq⟩ | ⟨h, heq⟩
    · simp [h, heq]
    · simp [h, heq]

/-- A cell of a matrix of two rows and three columns. -/
def boardReport : List Json :=
  [.obj [("name", .str "MATRIX$2$3$board"), ("assigned", .bool true), ("value", .int 7), ("position", .int 4)]]

theorem ofRecordsInWords?_exact_boardReport :
    gather 0 [] boardReport = .ok [("MATRIX$2$3$board", .sequence [none, none, none, none, some (.int 7)])] ∧
    (1 * 3 < Word.bound64 ∧ 1 * 3 + 2 < Word.bound64) ∧ ¬ Overflows boardReport := by
  obtain ⟨hcounts, -, hwords⟩ := ofRecordsInWords?_exact boardReport
  have hgather : gather 0 [] boardReport =
      .ok [("MATRIX$2$3$board", .sequence [none, none, none, none, some (.int 7)])] := rfl
  have hname : MatrixName.ofText? "MATRIX$2$3$board" = some ⟨2, 3, "board"⟩ := by decide
  obtain ⟨-, -, hindex⟩ := hcounts _ hgather _ _ _ (List.mem_singleton_self _) hname
  exact ⟨hgather, hindex (by decide) 1 2 (by decide) (by decide), hwords.1 rfl⟩

/-- **One cell is enough**: a record with a position under a name whose cells cannot be counted overflows. -/
theorem overflows_singleton {v : Json} {r : Record} {p : Nat} {m : MatrixName} (hv : Record.ofJson v = .ok r)
    (hp : r.position = some p) (hm : MatrixName.ofText? r.name = some m) (hle : Word.bound64 ≤ m.rows * m.cols) :
    Overflows [v] := by
  have hgather : gather 0 [] [v] = .ok [(r.name, .sequence (setCell [] p r.cell))] := by
    simp only [gather, hv, merge, hp]
    rfl
  rw [overflows_iff hgather]
  exact ⟨[], _, [], rfl, ⟨_, m, rfl, hm, hle⟩, List.nodup_nil⟩

/-- A cell of a matrix with so many rows that the cells of its two columns cannot be counted. -/
def oversizedReport : Json :=
  .obj [("name", .str "MATRIX$9223372036854775808$2$a"), ("assigned", .bool true), ("value", .int 1),
    ("position", .int 0)]

theorem matrixName_oversizedReport :
    MatrixName.ofText? "MATRIX$9223372036854775808$2$a" = some ⟨9223372036854775808, 2, "a"⟩ := by decide

theorem ofRecordsInWords?_oversizedReport : ofRecordsInWords? [oversizedReport] = none := by
  have hread : Record.ofJson oversizedReport = .ok ⟨"MATRIX$9223372036854775808$2$a", some (.int 1), some 0⟩ := rfl
  exact ofRecordsInWords?_of_overflows (overflows_singleton hread rfl matrixName_oversizedReport (by decide))

/-- **Rows and columns that are words have a product that is none.** -/
theorem overflows_oversizedReport : ∃ entries cells m, gather 0 [] [oversizedReport] = .ok entries ∧
    ("MATRIX$9223372036854775808$2$a", .sequence cells) ∈ entries ∧
    MatrixName.ofText? "MATRIX$9223372036854775808$2$a" = some m ∧ ¬ m.rows * m.cols < Word.bound64 ∧
    ofRecordsInWords? [oversizedReport] = none := by
  refine ⟨_, [some (.int 1)], _, rfl, List.mem_singleton_self _, matrixName_oversizedReport, by decide,
    ofRecordsInWords?_oversizedReport⟩

end Records

/-! ## A whole reply -/

section Replies

variable {v : Json} {values : List Json}

/-- The values are read one after the other up to a list of records that overflows. -/
def ListOverflows (values : List Json) : Prop :=
  ∃ before records after, values = before ++ .arr records :: after ∧ (∀ v ∈ before, ∃ s, ofJson v = .ok s) ∧
    Overflows records

theorem ofJsonInWords?_cases (v : Json) :
    (∃ records, v = .arr records ∧ Overflows records ∧ ofJsonInWords? v = none) ∨
      ((∀ records, v = .arr records → ¬ Overflows records) ∧ ofJsonInWords? v = some (ofJson v)) := by
  cases v with
  | arr records =>
    rcases ofRecordsInWords?_cases records with ⟨h, heq⟩ | ⟨h, heq⟩
    · exact Or.inl ⟨records, rfl, h, heq⟩
    · refine Or.inr ⟨?_, heq⟩
      rintro _ ⟨⟩
      exact h
  | _ => exact Or.inr ⟨fun _ h => Json.noConfusion h, rfl⟩

/-- The first value decides, or else the others do. -/
theorem listOverflows_cons (h : ∀ records, v = .arr records → ¬ Overflows records) :
    ListOverflows (v :: values) ↔ (∃ s, ofJson v = .ok s) ∧ ListOverflows values := by
  constructor
  · rintro ⟨before, records, after, hsplit, hbefore, hoverflow⟩
    cases before with
    | nil =>
      cases hsplit
      exact absurd hoverflow (h records rfl)
    | cons _ before =>
      cases hsplit
      obtain ⟨hv, hbefore⟩ := List.forall_mem_cons.1 hbefore
      exact ⟨hv, before, records, after, rfl, hbefore, hoverflow⟩
  · rintro ⟨hv, before, records, after, rfl, hbefore, hoverflow⟩
    exact ⟨v :: before, records, after, rfl, List.forall_mem_cons.2 ⟨hv, hbefore⟩, hoverflow⟩

theorem listInWords?_cases (values : List Json) :
    (ListOverflows values ∧ listInWords? values = none) ∨
      (¬ ListOverflows values ∧ listInWords? values = some (values.mapM ofJson)) := by
  induction values with
  | nil =>
    refine Or.inr ⟨?_, rfl⟩
    rintro ⟨before, records, after, hsplit, -, -⟩
    exact absurd hsplit (by simp)
  | cons v values ih =>
    rcases ofJsonInWords?_cases v with ⟨records, rfl, hoverflow, hv⟩ | ⟨hwords, hv⟩
    · have hnone : ∀ u ∈ ([] : List Json), ∃ s, ofJson u = .ok s := fun _ hu => absurd hu List.not_mem_nil
      exact Or.inl ⟨⟨[], records, values, rfl, hnone, hoverflow⟩, by rw [listInWords?, hv]⟩
    rw [listOverflows_cons hwords, listInWords?, hv, List.mapM_cons]
    cases hread : ofJson v with
    | error e =>
      refine Or.inr ⟨?_, rfl⟩
      rintro ⟨⟨_, hs⟩, -⟩
      cases hs
    | ok s =>
      rcases ih with ⟨h, heq⟩ | ⟨h, heq⟩
      · exact Or.inl ⟨⟨⟨s, rfl⟩, h⟩, by simp only [heq, Option.map_none]⟩
      · refine Or.inr ⟨fun hboth => h hboth.2, ?_⟩
        simp only [heq, Option.map_some, Except.ok_bind]
        cases values.mapM ofJson <;> rfl

end Replies

end Solution

namespace Reply

variable {r : Reply}

/-- The reply reports no failure, and its solutions overflow. -/
def Overflows (r : Reply) : Prop :=
  r.isOk = true ∧ ∃ values, r.content = .arr values ∧ Solution.ListOverflows values

/-- **When the solutions of a reply can be read with counts in words.** Reading them comes to nothing exactly if they
overflow, and else to the solutions, or the error, without bounds. -/
theorem solutionsInWords?_exact (r : Reply) :
    (r.solutionsInWords? = none ↔ r.Overflows) ∧ (r.solutionsInWords? = some r.solutions ↔ ¬ r.Overflows) := by
  unfold solutionsInWords? solutions Overflows
  cases r.isOk with
  | false => simp
  | true =>
    cases r.content with
    | arr values =>
      rcases Solution.listInWords?_cases values with ⟨h, heq⟩ | ⟨h, heq⟩
      · simp [heq, h]
      · simp [heq, h]
    | _ => simp

end Reply

end SolverClient
