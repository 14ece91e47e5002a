import Mathlib.Data.List.Perm.Basic
import SolverClient.Proofs.Solution.Gather
import SolverClient.Solution.Table

/-!
# The order of records does not matter

If no two records of a list have both the same name and the same position (`Solution.DistinctPlaces`) then each name has
the same value in every order of the list, so that two orders give the same entries in different orders
(`Solution.exists_ofRecords_of_perm`). Look-ups do not see that difference, and the table undoes it by sorting
(`Solution.table_of_perm`).
-/

namespace SolverClient.Solution

open Record

/-- No two records of the list have both the same name and the same position. -/
def DistinctPlaces (records : List Json) : Prop := records.Pairwise fun v w =>
  ∀ r s, Record.ofJson v = .ok r → Record.ofJson w = .ok s → ¬ (r.name = s.name ∧ r.position = s.position)

section Records

variable {records records' : List Json} {rs rs' : List Record} {entries entries' : OrderedMap SolvedValue}

theorem Parsed.perm (h : Parsed records rs) (hp : records.Perm records') :
    ∃ rs', Parsed records' rs' ∧ rs.Perm rs' := by
  obtain ⟨rs', hparsed, hperm⟩ := List.perm_comp_forall₂ hp.symm h
  exact ⟨rs', hparsed, hperm.symm⟩

theorem Parsed.pairwise (h : Parsed records rs) (hd : DistinctPlaces records) :
    rs.Pairwise fun r s => ¬ (r.name = s.name ∧ r.position = s.position) := by
  induction h with
  | nil => exact .nil
  | cons hr hrs ih =>
    obtain ⟨hfirst, hrest⟩ := List.pairwise_cons.1 hd
    refine .cons (fun s hs => ?_) (ih hrest)
    obtain ⟨w, hw, hs⟩ := exists_of_forall₂ hrs s hs
    exact hfirst w hw _ s hr hs

/-- The records of one name have different positions. -/
theorem Parsed.apart (h : Parsed records rs) (hd : DistinctPlaces records) (name : String) : Apart (own rs name) := by
  refine ((h.pairwise hd).filter _).imp_of_mem fun hr hs hne hpos => ?_
  exact hne ⟨(mem_own.1 hr).2.trans (mem_own.1 hs).2.symm, hpos⟩

theorem Gathered.perm (h : Gathered rs entries) (h' : Gathered rs' entries') (hp : rs.Perm rs') (hc : Consistent rs)
    (ha : ∀ name, Apart (own rs name)) : entries.Perm entries' := by
  refine OrderedMap.perm_of_get? h.nodup h'.nodup fun name => ?_
  rw [h.get?, h'.get?]
  exact valueOf?_of_perm (hc name) (ha name) (own_perm hp name)

/-- **Another order of the records gives the same entries in another order.** -/
theorem exists_ofRecords_of_perm {s : Solution} (hp : records.Perm records') (hd : DistinctPlaces records)
    (h : ofRecords records = .ok s) :
    ∃ s', ofRecords records' = .ok s' ∧ s.entries.Perm s'.entries ∧ s.entries.keys.Nodup := by
  obtain ⟨rs, entries, hparsed, hc, hg, hn, he⟩ := exists_of_ofRecords h
  obtain ⟨rs', hparsed', hrs⟩ := hparsed.perm hp
  obtain ⟨entries', hg', hof⟩ := ofRecords_of_consistent hparsed' (hc.perm hrs)
  have hentries := (hg.perm hg' hrs hc (hparsed.apart hd)).map reshape
  refine ⟨⟨entries'.map reshape⟩, hof ((hentries.map Prod.fst).nodup_iff.1 hn), ?_, ?_⟩
  · rw [he]
    exact hentries
  · rw [he]
    exact hn

end Records

/-! ## The table -/

section Table

variable {s s' : Solution}

/-- Entries in the order of their names. -/
theorem pairwise_sortedEntries (s : Solution) : s.sortedEntries.Pairwise fun a b => a.1 ≤ b.1 := by
  have h : s.sortedEntries.Pairwise fun a b => (!decide (b.1 < a.1)) = true := by
    refine List.pairwise_mergeSort (fun a b c hab hbc => ?_) (fun a b => ?_) s.entries
    · simp only [Bool.not_eq_true', decide_eq_false_iff_not, String.not_lt] at hab hbc ⊢
      exact String.le_trans hab hbc
    · simp only [Bool.or_eq_true, Bool.not_eq_true', decide_eq_false_iff_not, String.not_lt]
      exact String.le_total a.1 b.1
  simpa only [Bool.not_eq_true', decide_eq_false_iff_not, String.not_lt] using h

/-- Sorting by names leaves one order only, as no name comes twice. -/
theorem sortedEntries_of_perm (hp : s.entries.Perm s'.entries) (hn : s.entries.keys.Nodup) :
    s.sortedEntries = s'.sortedEntries := by
  have hs : s.sortedEntries.Perm s.entries := List.mergeSort_perm ..
  have hs' : s'.sortedEntries.Perm s'.entries := List.mergeSort_perm ..
  refine List.Perm.eq_of_pairwise ?_ s.pairwise_sortedEntries s'.pairwise_sortedEntries (hs.trans (hp.trans hs'.symm))
  rintro ⟨name, value⟩ ⟨name', value'⟩ hmem hmem' hle hge
  have hname : name = name' := String.le_antisymm hle hge
  subst hname
  have h := OrderedMap.get?_of_mem hn (hs.mem_iff.1 hmem)
  have h' := OrderedMap.get?_of_mem hn (hp.mem_iff.2 (hs'.mem_iff.1 hmem'))
  rw [h] at h'
  cases h'
  rfl

/-- **The table is the same for every order of the entries.** -/
theorem table_of_perm (hp : s.entries.Perm s'.entries) (hn : s.entries.keys.Nodup) : s.table = s'.table := by
  have hempty : s.entries.isEmpty = s'.entries.isEmpty := hp.isEmpty_eq
  have hwidth : (s.names.map String.utf8ByteSize).foldl max 0 = (s'.names.map String.utf8ByteSize).foldl max 0 := by
    refine List.Perm.foldl_eq' ((hp.map Prod.fst).map String.utf8ByteSize) (fun x _ y _ z => ?_) 0
    omega
  simp only [table, lines, hempty, hwidth, sortedEntries_of_perm hp hn]

/-- **Solutions with the same entries look the same**: the values of all names, the size and the table. -/
theorem looks_of_perm (hp : s.entries.Perm s'.entries) (hn : s.entries.keys.Nodup) :
    (∀ name, s.get? name = s'.get? name ∧ s.contains name = s'.contains name ∧ s.int? name = s'.int? name ∧
      s.float? name = s'.float? name ∧ s.bool? name = s'.bool? name ∧ s.sequence? name = s'.sequence? name ∧
      s.matrix? name = s'.matrix? name) ∧
    s.size = s'.size ∧ s.table = s'.table := by
  have hget : ∀ name, s.get? name = s'.get? name := OrderedMap.get?_of_perm hn hp
  refine ⟨fun name => ⟨hget name, ?_, ?_, ?_, ?_, ?_, ?_⟩, hp.length_eq, table_of_perm hp hn⟩
  · exact congrArg Option.isSome (hget name)
  · simp only [int?, hget name]
  · simp only [float?, hget name]
  · simp only [bool?, hget name]
  · simp only [sequence?, hget name]
  · simp only [matrix?, hget name]

end Table

theorem DistinctPlaces.perm {records records' : List Json} (hd : DistinctPlaces records) (hp : records.Perm records') :
    DistinctPlaces records' := by
  refine (hp.pairwise_iff fun {v w} h r s hr hs heq => ?_).1 hd
  exact h s r hs hr ⟨heq.1.symm, heq.2.symm⟩

/-- **The order of records does not matter.** In any order the list is accepted or refused alike, and what it gives
looks the same: the values of all names, the size and the table. -/
theorem ofRecords_perm {records records' : List Json} (hp : records.Perm records') (hd : DistinctPlaces records) :
    ((∃ s, ofRecords records = .ok s) ↔ ∃ s', ofRecords records' = .ok s') ∧
      ∀ s s', ofRecords records = .ok s → ofRecords records' = .ok s' →
        (∀ name, s.get? name = s'.get? name ∧ s.contains name = s'.contains name ∧ s.int? name = s'.int? name ∧
          s.float? name = s'.float? name ∧ s.bool? name = s'.bool? name ∧ s.sequence? name = s'.sequence? name ∧
          s.matrix? name = s'.matrix? name) ∧
        s.size = s'.size ∧ s.table = s'.table := by
  refine ⟨⟨?_, ?_⟩, fun s s' h h' => ?_⟩
  · rintro ⟨s, h⟩
    obtain ⟨s', h', -⟩ := exists_ofRecords_of_perm hp hd h
    exact ⟨s', h'⟩
  · rintro ⟨s', h'⟩
    obtain ⟨s, h, -⟩ := exists_ofRecords_of_perm hp.symm (hd.perm hp) h'
    exact ⟨s, h⟩
  · obtain ⟨t, ht, hperm, hn⟩ := exists_ofRecords_of_perm hp hd h
    rw [h'] at ht
    cases ht
    exact looks_of_perm hperm hn

/-- A record of a scalar and two of an array, the greater position first. -/
def recordsSample : List Json :=
  [.obj [("name", .str "x"), ("assigned", .bool true), ("value", .int 3)],
    .obj [("name", .str "a"), ("assigned", .bool true), ("position", .int 2), ("value", .bool false)],
    .obj [("name", .str "a"), ("assigned", .bool false), ("position", .int 0)]]

theorem distinctPlaces_recordsSample : DistinctPlaces recordsSample := by
  have hother : ("x" : String) ≠ "a" := by decide
  refine .cons ?_ (.cons ?_ (.cons (fun _ h => by cases h) .nil))
  · intro w hw r s hr hs
    rcases List.mem_cons.1 hw with rfl | hw
    · cases hr
      cases hs
      exact fun h => hother h.1
    · obtain rfl := List.mem_singleton.1 hw
      cases hr
      cases hs
      exact fun h => hother h.1
  · intro w hw r s hr hs
    obtain rfl := List.mem_singleton.1 hw
    cases hr
    cases hs
    exact fun h => by cases h.2

theorem ofRecords_perm_recordsSample :
    ((∃ s, ofRecords recordsSample = .ok s) ↔ ∃ s', ofRecords recordsSample.reverse = .ok s') ∧
      ∀ s s', ofRecords recordsSample = .ok s → ofRecords recordsSample.reverse = .ok s' →
        (∀ name, s.get? name = s'.get? name ∧ s.contains name = s'.contains name ∧ s.int? name = s'.int? name ∧
          s.float? name = s'.float? name ∧ s.bool? name = s'.bool? name ∧ s.sequence? name = s'.sequence? name ∧
          s.matrix? name = s'.matrix? name) ∧
        s.size = s'.size ∧ s.table = s'.table :=
  ofRecords_perm (List.reverse_perm _).symm distinctPlaces_recordsSample

end SolverClient.Solution
