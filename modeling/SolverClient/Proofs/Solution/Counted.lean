import SolverClient.Proofs.Solution.InWords
import SolverClient.Proofs.Solution.Order

/-!
# What a reader with counts in words gives

Records are **counted** (`Solution.Counted`) if the number of cells of each matrix that they name is a word. Reading does
not overflow if they are, and overflows if they are not and no two variables end up under one name
(`Solution.not_overflows_of_counted`, `Solution.overflows_of_not_counted`). A reader with counts in words gives what the
reader without bounds gives, and so a list that does not overflow is decoded exactly as it says
(`Solution.ofRecordsInWords?_decodes`) and in any order (`Solution.ofRecordsInWords?_perm`).
-/

namespace SolverClient.Solution

open Record

/-- Where a record of a cell has the name of a matrix, the cells of the matrix can be counted. -/
def Counted (rs : List Record) : Prop :=
  ∀ r ∈ rs, ∀ p m, r.position = some p → MatrixName.ofText? r.name = some m → m.rows * m.cols < Word.bound64

theorem Counted.perm {rs rs' : List Record} (h : Counted rs) (hp : rs.Perm rs') : Counted rs' :=
  fun r hr => h r (hp.mem_iff.2 hr)

/-! ## Oversized entries -/

section Entries

variable {rs : List Record} {entries : OrderedMap SolvedValue}

/-- **An entry is oversized iff its records are not counted.** -/
theorem Gathered.exists_oversized_iff (hg : Gathered rs entries) (hc : Consistent rs) :
    (∃ entry ∈ entries, Oversized entry) ↔ ¬ Counted rs := by
  constructor
  · rintro ⟨⟨name, _⟩, hmem, cells, m, rfl, hm, hle⟩ h
    obtain ⟨last, hlast, hcells⟩ := Option.map_eq_some_iff.1 (hg.valueOf?_of_mem hmem)
    obtain ⟨hrs, rfl⟩ := mem_own.1 (List.mem_of_getLast? hlast)
    cases hp : last.position with
    | none => simp [hp] at hcells
    | some p => exact Nat.not_lt.2 hle (h last hrs p m hp hm)
  · intro h
    simp only [Counted, not_forall, Nat.not_lt] at h
    obtain ⟨r, hr, p, m, hp, hm, hle⟩ := h
    have hown : r ∈ own rs r.name := mem_own.2 ⟨hr, rfl⟩
    rcases (hc r.name).cases with ⟨hnil, -⟩ | ⟨-, hall, -⟩ | ⟨-, -, hvalue⟩
    · rw [hnil] at hown
      cases hown
    · have hsome := hall r hown
      simp [hp] at hsome
    · exact ⟨_, OrderedMap.mem_of_get? ((hg.get? r.name).trans hvalue), _, m, rfl, hm, hle⟩

theorem exists_oversized_of_reaches {done : OrderedMap SolvedValue} (h : Reaches entries done) :
    ∃ entry ∈ entries, Oversized entry := by
  obtain ⟨before, entry, after, rfl, hsize, -⟩ := h
  exact ⟨entry, List.mem_append_right _ List.mem_cons_self, hsize⟩

/-- Entries that end up under different names are all come to. -/
theorem reaches_of_nodup (hn : (OrderedMap.keys (entries.map reshape)).Nodup) (h : ∃ entry ∈ entries, Oversized entry) :
    Reaches entries [] := by
  obtain ⟨entry, hmem, hsize⟩ := h
  obtain ⟨before, after, rfl⟩ := List.append_of_mem hmem
  refine ⟨before, entry, after, rfl, hsize, ?_⟩
  rw [OrderedMap.keys, List.map_append, List.map_append] at hn
  exact (List.nodup_append.1 hn).1

end Entries

/-! ## Records that overflow -/

section Records

variable {records records' : List Json} {rs : List Record} {s : Solution}

/-- A list of values holds one list of records only. -/
theorem Parsed.unique {rs' : List Record} (h : Parsed records rs) (h' : Parsed records rs') : rs = rs' := by
  induction h generalizing rs' with
  | nil =>
    cases h'
    rfl
  | cons hr _ ih =>
    cases h' with
    | cons hr' h' =>
      rw [hr] at hr'
      rw [Except.ok.inj hr', ih h']

theorem not_overflows_of_counted (hp : Parsed records rs) (h : Counted rs) : ¬ Overflows records := by
  rintro ⟨entries, hgather, hreach⟩
  obtain ⟨rs', hp', hc, hg⟩ := exists_of_gather hgather
  obtain rfl := hp.unique hp'
  exact (hg.exists_oversized_iff hc).1 (exists_oversized_of_reaches hreach) h

/-- **Records that are not counted overflow** where they would be decoded without bounds. -/
theorem overflows_of_not_counted (hp : Parsed records rs) (hdecoded : ofRecords records = .ok s) (h : ¬ Counted rs) :
    Overflows records := by
  obtain ⟨entries, hgather, hdecoded⟩ := Except.bind_eq_ok.1 hdecoded
  obtain ⟨out, hcollect, -⟩ := Except.bind_eq_ok.1 hdecoded
  obtain ⟨rs', hp', hc, hg⟩ := exists_of_gather hgather
  obtain rfl := hp.unique hp'
  exact ⟨entries, hgather, reaches_of_nodup (collect_nil_eq_ok.1 hcollect).1 ((hg.exists_oversized_iff hc).2 h)⟩

/-! ## Any order -/

/-- **Another order of the records is read as well**, and gives the same entries in another order. -/
theorem exists_ofRecordsInWords?_of_perm (hperm : records.Perm records') (hd : DistinctPlaces records)
    (h : ofRecordsInWords? records = some (.ok s)) :
    ∃ s', ofRecordsInWords? records' = some (.ok s') ∧ s.entries.Perm s'.entries ∧ s.entries.keys.Nodup := by
  obtain ⟨hwords, hdecoded⟩ := ofRecordsInWords?_eq_some h
  obtain ⟨rs, _, hp, -⟩ := exists_of_ofRecords hdecoded
  have hcounted : Counted rs := by
    by_contra hn
    exact hwords (overflows_of_not_counted hp hdecoded hn)
  obtain ⟨rs', hp', hrs⟩ := hp.perm hperm
  obtain ⟨s', hdecoded', hentries⟩ := exists_ofRecords_of_perm hperm hd hdecoded
  refine ⟨s', ?_, hentries⟩
  rw [ofRecordsInWords?_of_not_overflows (not_overflows_of_counted hp' (hcounted.perm hrs)), hdecoded']

/-- **The order of records does not matter to a reader with counts in words** either. It gives a solution in any order
or in none, and what it gives looks the same. -/
theorem ofRecordsInWords?_perm (hperm : records.Perm records') (hd : DistinctPlaces records) :
    ((∃ s, ofRecordsInWords? records = some (.ok s)) ↔ ∃ s', ofRecordsInWords? records' = some (.ok s')) ∧
      ∀ s s', ofRecordsInWords? records = some (.ok s) → ofRecordsInWords? records' = some (.ok s') →
        (∀ name, s.get? name = s'.get? name ∧ s.contains name = s'.contains name ∧ s.int? name = s'.int? name ∧
          s.float? name = s'.float? name ∧ s.bool? name = s'.bool? name ∧ s.sequence? name = s'.sequence? name ∧
          s.matrix? name = s'.matrix? name) ∧
        s.size = s'.size ∧ s.table = s'.table := by
  refine ⟨⟨?_, ?_⟩, fun s s' h h' => ?_⟩
  · rintro ⟨s, h⟩
    obtain ⟨s', h', -⟩ := exists_ofRecordsInWords?_of_perm hperm hd h
    exact ⟨s', h'⟩
  · rintro ⟨s', h'⟩
    obtain ⟨s, h, -⟩ := exists_ofRecordsInWords?_of_perm hperm.symm (hd.perm hperm) h'
    exact ⟨s, h⟩
  · obtain ⟨t, ht, hentries, hn⟩ := exists_ofRecordsInWords?_of_perm hperm hd h
    rw [h'] at ht
    cases ht
    exact looks_of_perm hentries hn

/-! ## What a list is decoded as -/

/-- **What exactly a list of values is decoded as, with counts in words.** A value has a fault iff it holds no record. If
some value of the list is at fault, the first one that is gives the error. If none is, each name has one entry, in the
order in which the names first come. Unless the list overflows, the entries are the solution if their own names differ,
and else the first name that comes again gives the error. A list that overflows comes to nothing. It does not if each
matrix that a cell is named for has a word of cells, and it does if the names differ and some matrix has not. -/
theorem ofRecordsInWords?_decodes (records : List Json) :
    (∀ v, (∃ fault, Faulty v fault) ↔ ∀ r, ¬ Holds v r) ∧
    (Sound records ∨
      ∃ before v after e, records = before ++ v :: after ∧ Sound before ∧ FaultAfter before v e) ∧
    (∀ before v after e, records = before ++ v :: after → Sound before → FaultAfter before v e →
      ofRecordsInWords? records = some (.error e)) ∧
    (Sound records → ∃ rs entries,
      List.Forall₂ Holds records rs ∧ List.Forall₂ (EntryOf rs) (rs.map Record.name).eraseDups entries ∧
        (¬ Overflows records →
          ((OrderedMap.keys entries).Nodup → ofRecordsInWords? records = some (.ok ⟨entries⟩)) ∧
          (¬ (OrderedMap.keys entries).Nodup → ∃ before name x after, entries = before ++ (name, x) :: after ∧
            (OrderedMap.keys before).Nodup ∧ name ∈ OrderedMap.keys before ∧
              ofRecordsInWords? records = some (.error (.shapeConflict name)))) ∧
        (Overflows records → ofRecordsInWords? records = none) ∧
        (Counted rs → ¬ Overflows records) ∧
        ((OrderedMap.keys entries).Nodup → ¬ Counted rs → Overflows records)) := by
  refine ⟨fun v => exists_faulty_iff, ?_, ?_, fun h => ?_⟩
  · by_cases h : Sound records
    · exact Or.inl h
    · exact Or.inr (exists_firstFault h)
  · rintro before v after e rfl hbefore hv
    rw [ofRecordsInWords?, gather_of_fault hbefore hv]
  · obtain ⟨rs, entries, hr, he, hok, hclash⟩ := exists_entries_of_sound h
    have hp : Parsed records rs := hr.imp fun _ _ => ofJson_of_holds
    refine ⟨rs, entries, hr, he, fun hwords => ?_, ofRecordsInWords?_of_overflows, not_overflows_of_counted hp,
      fun hn => overflows_of_not_counted hp (hok hn)⟩
    rw [ofRecordsInWords?_of_not_overflows hwords]
    refine ⟨fun hn => congrArg some (hok hn), fun hn => ?_⟩
    obtain ⟨before, name, x, after, hsplit, hbefore, hmem, herror⟩ := hclash hn
    exact ⟨before, name, x, after, hsplit, hbefore, hmem, congrArg some herror⟩

end Records

/-- A cell. -/
def cellReport : Json := .obj [("name", .str "a"), ("assigned", .bool true), ("position", .int 2), ("value", .int 1)]

/-- A scalar with the name of the cell. -/
def scalarReport : Json := .obj [("name", .str "a"), ("assigned", .bool true), ("value", .int 5)]

theorem faultAfter_cellReport : FaultAfter [cellReport] scalarReport (.shapeConflict "a") := by
  have hcell : Record.ofJson cellReport = .ok ⟨"a", some (.int 1), some 2⟩ := rfl
  have hscalar : Record.ofJson scalarReport = .ok ⟨"a", some (.int 5), none⟩ := rfl
  exact .mixed (ofJson_eq_ok.1 hscalar) (List.mem_singleton_self _) (ofJson_eq_ok.1 hcell) rfl (by decide)

/-- Cells out of order, one of them reported again, a matrix of which one cell is reported, and a scalar without a
value. -/
def soundSample : List Json :=
  [.obj [("name", .str "a"), ("assigned", .bool true), ("position", .int 2), ("value", .int 1)],
    .obj [("name", .str "MATRIX$2$3$grid"), ("assigned", .bool true), ("position", .int 3), ("value", .int 7)],
    .obj [("name", .str "a"), ("assigned", .bool true), ("position", .int 0), ("value", .int 4)],
    .obj [("name", .str "x"), ("assigned", .bool true), ("value", .null)],
    .obj [("name", .str "a"), ("assigned", .bool true), ("position", .int 2), ("value", .int 6)]]

theorem ofRecordsInWords?_soundSample : ofRecordsInWords? soundSample =
    some (.ok ⟨[("a", .sequence [some (.int 4), none, some (.int 6)]),
      ("grid", .matrix [[none, none, none], [some (.int 7), none, none]]), ("x", .scalar none)]⟩) := by
  rfl

theorem ofRecordsInWords?_decodes_samples :
    ofRecordsInWords? [cellReport, scalarReport, .null] = some (.error (.shapeConflict "a")) ∧
    ∃ rs entries, List.Forall₂ Holds soundSample rs ∧
      List.Forall₂ (EntryOf rs) (rs.map Record.name).eraseDups entries ∧
      ofRecordsInWords? soundSample = some (.ok ⟨entries⟩) := by
  constructor
  · obtain ⟨-, -, hstop, -⟩ := ofRecordsInWords?_decodes [cellReport, scalarReport, .null]
    exact hstop [cellReport] _ _ _ rfl (sound_of_ofRecords_eq_ok rfl) faultAfter_cellReport
  · obtain ⟨-, -, -, hsound⟩ := ofRecordsInWords?_decodes soundSample
    obtain ⟨hcounts, hdecoded⟩ := ofRecordsInWords?_eq_some ofRecordsInWords?_soundSample
    obtain ⟨rs, entries, hr, he, hwords, -⟩ := hsound (sound_of_ofRecords_eq_ok hdecoded)
    obtain ⟨hok, hclash⟩ := hwords hcounts
    refine ⟨rs, entries, hr, he, hok ?_⟩
    by_contra hn
    obtain ⟨_, _, _, _, -, -, -, herror⟩ := hclash hn
    rw [ofRecordsInWords?_soundSample] at herror
    cases herror

/-- **A list without a fault may come to nothing**: its one entry would be a matrix of which the cells cannot be
counted. -/
theorem undecoded_oversizedReport : Sound [oversizedReport] ∧
    (∃ rs entries, List.Forall₂ Holds [oversizedReport] rs ∧
      List.Forall₂ (EntryOf rs) (rs.map Record.name).eraseDups entries ∧ (OrderedMap.keys entries).Nodup ∧
      ofRecordsInWords? [oversizedReport] ≠ some (.ok ⟨entries⟩)) ∧
    ofRecordsInWords? [oversizedReport] = none := by
  have hread : Record.ofJson oversizedReport = .ok ⟨"MATRIX$9223372036854775808$2$a", some (.int 1), some 0⟩ := rfl
  have hsound : Sound [oversizedReport] := sound_singleton (ofJson_eq_ok.1 hread)
  obtain ⟨rs, entries, hr, he, -⟩ := exists_entries_of_sound hsound
  refine ⟨hsound, ⟨rs, entries, hr, he, ?_, ?_⟩, ofRecordsInWords?_oversizedReport⟩
  · cases hr with
    | cons _ hnil =>
      cases hnil
      cases he with
      | cons _ hnil =>
        cases hnil
        exact List.nodup_singleton _
  · rw [ofRecordsInWords?_oversizedReport]
    exact nofun

end SolverClient.Solution
