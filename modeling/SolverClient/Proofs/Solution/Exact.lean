import SolverClient.Proofs.Solution.Report

/-!
# What exactly a list of values is decoded as

A value either holds a record (`Record.Holds`) or has a fault (`Record.Faulty`), and the reader says which
(`Record.ofJson_of_holds`, `Record.ofJson_of_faulty`). In a list, a value is also at fault if it holds a record of a
scalar whose name had cells before, or the other way round (`Solution.FaultAfter`). Decoding stops at the first fault
(`Solution.ofRecords_of_fault`). A list without one is decoded as one entry for each name, in the order in which the
names first come, and each entry has the cells that were reported last (`Solution.EntryOf`), unless two names end up as
one (`Solution.exists_entries_of_sound`).
-/

namespace SolverClient

/-! ## One value -/

namespace Record

/-- The value holds the record: it has a text for a name, says whether the record is assigned, and has a position up to
the greatest or none. The cell of an assigned record is its value, if it has one that is not null. -/
def Holds (v : Json) (r : Record) : Prop :=
  ∃ (d : Fields) (assigned : Bool), v = .obj d ∧ d.get? "name" = some (.str r.name) ∧
    d.get? "assigned" = some (.bool assigned) ∧ (d.get? "position" = r.position.map fun n => .int n) ∧
    (∀ n, r.position = some n → n ≤ maxPosition) ∧
    ∀ x, r.cell = some x ↔ assigned = true ∧ d.get? "value" = some x ∧ x ≠ .null

/-- The value holds no record, for the reason of the fault. Fields are looked at in the order name, assigned, position;
what stands under other keys does not matter. -/
inductive Faulty : Json → RecordFault → Prop
  | notObject {v : Json} (h : ∀ d, v ≠ .obj d) : Faulty v .notObject
  | missingName {d : Fields} (h : ∀ s, d.get? "name" ≠ some (.str s)) : Faulty (.obj d) .missingName
  | missingAssigned {d : Fields} {s : String} (hname : d.get? "name" = some (.str s))
      (h : ∀ b, d.get? "assigned" ≠ some (.bool b)) : Faulty (.obj d) .missingAssigned
  | badPosition {d : Fields} {s : String} {b : Bool} {p : Json} (hname : d.get? "name" = some (.str s))
      (hassigned : d.get? "assigned" = some (.bool b)) (hposition : d.get? "position" = some p)
      (h : ∀ n : Nat, n < Word.bound64 → p ≠ .int n) : Faulty (.obj d) .badPosition
  | positionTooGreat {d : Fields} {s : String} {b : Bool} {n : Nat} (hname : d.get? "name" = some (.str s))
      (hassigned : d.get? "assigned" = some (.bool b)) (hposition : d.get? "position" = some (.int n))
      (hword : n < Word.bound64) (h : maxPosition < n) : Faulty (.obj d) (.positionTooGreat n)

section Reading

variable {v : Json} {d : Fields} {r : Record} {fault : RecordFault}

/-- The cell of a record is its value, if it is assigned and not null. -/
theorem cellOf_eq_some_iff {assigned : Bool} {x : Json} :
    cellOf assigned d = some x ↔ assigned = true ∧ d.get? "value" = some x ∧ x ≠ .null := by
  have hnull : (!x.isNull) = true ↔ x ≠ .null := by cases x <;> simp [Json.isNull]
  cases assigned with
  | false => simp [cellOf]
  | true => simp only [cellOf, if_true, Option.filter_eq_some_iff, hnull, true_and]

/-- **What a value holds is read.** -/
theorem ofJson_of_holds (h : Holds v r) : ofJson v = .ok r := by
  obtain ⟨d, assigned, rfl, hname, hassigned, hposition, hmax, hcell⟩ := h
  obtain ⟨name, cell, position⟩ := r
  have hp := (positionOf_eq_ok_of_place hposition).2 ⟨rfl, hmax⟩
  have hc : cellOf assigned d = cell := Option.ext fun x => by rw [cellOf_eq_some_iff, hcell x]
  simp [ofJson, Json.asFields?, hname, hassigned, Json.asString?, Json.asBool?, hp, hc]

/-- **A fault is reported.** -/
theorem ofJson_of_faulty (h : Faulty v fault) : ofJson v = .error fault := by
  cases h with
  | notObject h =>
    cases v with
    | obj d => exact absurd rfl (h d)
    | _ => rfl
  | @missingName d h =>
    have hname : (d.get? "name").bind Json.asString? = none := by
      refine Option.eq_none_iff_forall_ne_some.2 fun s hs => ?_
      obtain ⟨v, hv, hs⟩ := Option.bind_eq_some_iff.1 hs
      exact h s (Json.asString?_eq_some_iff.1 hs ▸ hv)
    simp [ofJson, Json.asFields?, hname]
  | @missingAssigned d s hname h =>
    have hassigned : (d.get? "assigned").bind Json.asBool? = none := by
      refine Option.eq_none_iff_forall_ne_some.2 fun b hb => ?_
      obtain ⟨v, hv, hb⟩ := Option.bind_eq_some_iff.1 hb
      exact h b (Json.asBool?_eq_some_iff.1 hb ▸ hv)
    simp [ofJson, Json.asFields?, hname, Json.asString?, hassigned]
  | @badPosition d s b p hname hassigned hposition h =>
    have hcount : p.asCount? = none := by
      refine Option.eq_none_iff_forall_ne_some.2 fun n hn => ?_
      obtain ⟨hp, hn⟩ := Json.asCount?_eq_some_iff.1 hn
      exact h n hn hp
    have hread : positionOf d = .error .badPosition := by simp only [positionOf, hposition, hcount]
    simp [ofJson, Json.asFields?, hname, hassigned, Json.asString?, Json.asBool?, hread]
  | @positionTooGreat d s b n hname hassigned hposition hword h =>
    have hread := positionOf_of_gt hposition (Json.asCount?_eq_some_iff.2 ⟨rfl, hword⟩) h
    simp [ofJson, Json.asFields?, hname, hassigned, Json.asString?, Json.asBool?, hread]

/-- A value holds a record or has a fault. -/
theorem holds_or_faulty (v : Json) : (∃ r, Holds v r) ∨ ∃ fault, Faulty v fault := by
  by_cases hobj : ∃ d : Fields, v = .obj d
  swap
  · exact Or.inr ⟨_, .notObject fun d hd => hobj ⟨d, hd⟩⟩
  obtain ⟨d, rfl⟩ := hobj
  by_cases hname : ∃ s, d.get? "name" = some (.str s)
  swap
  · exact Or.inr ⟨_, .missingName fun s hs => hname ⟨s, hs⟩⟩
  obtain ⟨s, hname⟩ := hname
  by_cases hassigned : ∃ b, d.get? "assigned" = some (.bool b)
  swap
  · exact Or.inr ⟨_, .missingAssigned hname fun b hb => hassigned ⟨b, hb⟩⟩
  obtain ⟨b, hassigned⟩ := hassigned
  have hcell (x : Json) : cellOf b d = some x ↔ _ := cellOf_eq_some_iff
  cases hposition : d.get? "position" with
  | none => exact Or.inl ⟨⟨s, cellOf b d, none⟩, d, b, rfl, hname, hassigned, hposition, by simp, hcell⟩
  | some p =>
    by_cases hword : ∃ n : Nat, n < Word.bound64 ∧ p = .int n
    swap
    · exact Or.inr ⟨_, .badPosition hname hassigned hposition fun n hn hp => hword ⟨n, hn, hp⟩⟩
    obtain ⟨n, hword, rfl⟩ := hword
    by_cases hmax : n ≤ maxPosition
    · exact Or.inl ⟨⟨s, cellOf b d, some n⟩, d, b, rfl, hname, hassigned, hposition, by simp [hmax], hcell⟩
    · exact Or.inr ⟨_, .positionTooGreat hname hassigned hposition hword (Nat.lt_of_not_le hmax)⟩

/-- A value is read as a record iff it holds it. -/
theorem ofJson_eq_ok : ofJson v = .ok r ↔ Holds v r := by
  refine ⟨fun h => ?_, ofJson_of_holds⟩
  rcases holds_or_faulty v with ⟨s, hs⟩ | ⟨fault, hfault⟩
  · rw [ofJson_of_holds hs] at h
    cases h
    exact hs
  · rw [ofJson_of_faulty hfault] at h
    cases h

/-- A value has a fault iff it holds no record. -/
theorem exists_faulty_iff : (∃ fault, Faulty v fault) ↔ ∀ r, ¬ Holds v r := by
  constructor
  · rintro ⟨fault, hfault⟩ r hr
    have h := ofJson_of_holds hr
    rw [ofJson_of_faulty hfault] at h
    cases h
  · intro h
    exact (holds_or_faulty v).resolve_left fun ⟨r, hr⟩ => h r hr

end Reading

end Record

namespace Solution

open Record

/-! ## The first fault -/

/-- What is wrong with a value after others: it holds no record, or one of a scalar whose name had cells before, or the
other way round. -/
inductive FaultAfter (before : List Json) (v : Json) : SolutionError → Prop
  | malformed {fault : RecordFault} (h : Faulty v fault) : FaultAfter before v (.malformedRecord before.length fault)
  | mixed {w : Json} {r s : Record} (hr : Holds v r) (hw : w ∈ before) (hs : Holds w s) (hname : s.name = r.name)
      (hkind : s.position.isSome ≠ r.position.isSome) : FaultAfter before v (.shapeConflict r.name)

/-- No value is at fault after those before it. -/
def Sound (records : List Json) : Prop :=
  ∀ before v after, records = before ++ v :: after → ∀ e, ¬ FaultAfter before v e

section Faults

variable {records before after : List Json} {v : Json} {e : SolutionError} {rs : List Record}

theorem sound_append_iff : Sound (records ++ [v]) ↔ Sound records ∧ ∀ e, ¬ FaultAfter records v e := by
  constructor
  · intro h
    refine ⟨fun before w after hsplit => h before w (after ++ [v]) ?_, h records v [] rfl⟩
    rw [hsplit, List.append_assoc, List.cons_append]
  · rintro ⟨h, hv⟩ before w after hsplit
    rcases List.eq_nil_or_concat after with rfl | ⟨rest, u, rfl⟩
    · obtain ⟨rfl, hvw⟩ := List.append_inj' hsplit rfl
      cases hvw
      exact hv
    · rw [List.concat_eq_append, ← List.cons_append, ← List.append_assoc] at hsplit
      exact h before w rest (List.append_inj' hsplit rfl).1

/-- A value that holds a record is a list without a fault by itself. -/
theorem sound_singleton {r : Record} (h : Holds v r) : Sound [v] := by
  have hnil : Sound [] := fun before w after hsplit => absurd hsplit (by simp)
  refine sound_append_iff.2 ⟨hnil, fun e he => ?_⟩
  cases he with
  | malformed hfault => exact exists_faulty_iff.1 ⟨_, hfault⟩ r h
  | mixed _ hw _ _ _ => exact List.not_mem_nil hw

/-- **A list without a fault is a list of records that go together.** -/
theorem exists_parsed_of_sound (h : Sound records) : ∃ rs, Parsed records rs ∧ Consistent rs := by
  induction records using List.reverseRecOn with
  | nil => exact ⟨[], .nil, fun _ s hs => by cases hs⟩
  | append_singleton records v ih =>
    obtain ⟨h, hv⟩ := sound_append_iff.1 h
    obtain ⟨rs, hp, hc⟩ := ih h
    rcases holds_or_faulty v with ⟨r, hr⟩ | ⟨fault, hfault⟩
    · refine ⟨rs ++ [r], List.rel_append hp (.cons (ofJson_of_holds hr) .nil), ?_⟩
      refine consistent_append_iff.2 ⟨hc, fun s hs hname => ?_⟩
      by_contra hkind
      obtain ⟨w, hw, hread⟩ := exists_of_forall₂ hp s hs
      exact hv _ (.mixed hr hw (ofJson_eq_ok.1 hread) hname hkind)
    · exact absurd (.malformed hfault) (hv _)

/-- **Gathering stops at the first fault.** -/
theorem gather_of_fault (h : Sound before) (hv : FaultAfter before v e) :
    gather 0 [] (before ++ v :: after) = .error e := by
  obtain ⟨rs, hp, hc⟩ := exists_parsed_of_sound h
  obtain ⟨out, hg, hout⟩ := exists_gather_append 0 hp gathered_nil hc
  rw [hout, Nat.zero_add]
  cases hv with
  | malformed hfault => simp only [gather, ofJson_of_faulty hfault]
  | @mixed w r s hr hw hs hname hkind =>
    have hn : ¬ Consistent (rs ++ [r]) := by
      intro hall
      obtain ⟨s', hs', hread⟩ := exists_of_forall₂ hp.flip w hw
      rw [ofJson_of_holds hs] at hread
      cases hread
      exact hkind ((consistent_append_iff.1 hall).2 s hs' hname)
    simp only [gather, ofJson_of_holds hr, hg.merge_eq_error hc hn, Except.error_bind]

/-- So does decoding. -/
theorem ofRecords_of_fault (h : Sound before) (hv : FaultAfter before v e) :
    ofRecords (before ++ v :: after) = .error e := by
  rw [ofRecords, gather_of_fault h hv]
  rfl

/-- A list that has a fault has a first one. -/
theorem exists_firstFault (h : ¬ Sound records) :
    ∃ before v after e, records = before ++ v :: after ∧ Sound before ∧ FaultAfter before v e := by
  induction records using List.reverseRecOn with
  | nil => exact absurd (fun before v after h => by simp at h) h
  | append_singleton records v ih =>
    by_cases hs : Sound records
    · rw [sound_append_iff, not_and] at h
      have hv := h hs
      push Not at hv
      obtain ⟨e, he⟩ := hv
      exact ⟨records, v, [], e, rfl, hs, he⟩
    · obtain ⟨before, w, after, e, rfl, hbefore, he⟩ := ih hs
      exact ⟨before, w, after ++ [v], e, by simp, hbefore, he⟩

/-- A list that is decoded has no fault. -/
theorem sound_of_ofRecords_eq_ok {s : Solution} (h : ofRecords records = .ok s) : Sound records := by
  by_contra hs
  obtain ⟨before, v, after, e, rfl, hbefore, he⟩ := exists_firstFault hs
  rw [ofRecords_of_fault hbefore he] at h
  cases h

end Faults

/-! ## Entries -/

/-- The record is the last one of the list with the property. -/
def LastWith (rs : List Record) (p : Record → Prop) (r : Record) : Prop :=
  ∃ before after, rs = before ++ r :: after ∧ p r ∧ ∀ s ∈ after, ¬ p s

/-- The cell of a place is that of its last record, and open if it has none. -/
inductive CellOf (rs : List Record) (place : String × Option Nat) : Cell → Prop
  | reported {r : Record} (h : LastWith rs (fun s => s.place = place) r) : CellOf rs place r.cell
  | unreported (h : ∀ r ∈ rs, r.place ≠ place) : CellOf rs place none

/-- The cells of a name go up to its greatest position. -/
structure CellsOf (rs : List Record) (name : String) (cells : List Cell) : Prop where
  greatest : ∃ p, (∃ r ∈ rs, r.place = (name, some p)) ∧ (∀ r ∈ rs, ∀ q, r.place = (name, some q) → q ≤ p) ∧
    cells.length = p + 1
  cell : ∀ p cell, cells[p]? = some cell → CellOf rs (name, some p) cell

/-- The rows have the shape that a name carries, and the cells of the name, row by row. Cells past the last one that was
reported are open, and those that the shape has no place for do not count. -/
structure RowsOf (rs : List Record) (name : String) (m : MatrixName) (rows : List (List Cell)) : Prop where
  reported : ∃ r ∈ rs, ∃ p, r.place = (name, some p)
  length : rows.length = m.rows
  cols : ∀ row ∈ rows, row.length = m.cols
  cell : ∀ r c row cell, rows[r]? = some row → row[c]? = some cell → CellOf rs (name, some (r * m.cols + c)) cell

/-- The entry of a name: a scalar with the cell of its last record, or cells, which under the name of a matrix are cut
into rows. -/
inductive EntryOf (rs : List Record) (name : String) : String × SolvedValue → Prop
  | scalar {r : Record} (h : LastWith rs (fun s => s.name = name) r) (hp : r.position = none) :
      EntryOf rs name (name, .scalar r.cell)
  | sequence {cells : List Cell} (hname : MatrixName.ofText? name = none) (h : CellsOf rs name cells) :
      EntryOf rs name (name, .sequence cells)
  | matrix {m : MatrixName} {rows : List (List Cell)} (hname : MatrixName.ofText? name = some m)
      (h : RowsOf rs name m rows) : EntryOf rs name (m.base, .matrix rows)

section Entries

variable {rs : List Record} {name : String} {p : Record → Bool} {r : Record}

/-- The last record that is found. -/
theorem lastWith_of_find? (h : rs.reverse.find? p = some r) : LastWith rs (fun s => p s = true) r := by
  obtain ⟨hp, after, before, hsplit, hafter⟩ := List.find?_eq_some_iff_append.1 h
  refine ⟨before.reverse, after.reverse, ?_, hp, fun s hs => ?_⟩
  · rw [← List.reverse_reverse rs, hsplit]
    simp
  · simpa using hafter s (List.mem_reverse.1 hs)

/-- The last of the records of a name is the last record that has it. -/
theorem lastWith_of_getLast?_own (h : (own rs name).getLast? = some r) : LastWith rs (fun s => s.name = name) r := by
  rw [own, List.getLast?_eq_head?_reverse, ← List.filter_reverse, List.head?_filter] at h
  simpa using lastWith_of_find? h

/-- **The cell of a position is that of its last record.** -/
theorem cellOf_cellAt (rs : List Record) (name : String) (p : Nat) :
    CellOf rs (name, some p) (cellAt (own rs name) p) := by
  have hfind : ((own rs name).reverse.find? fun r => r.position == some p) =
      rs.reverse.find? fun r => decide (r.place = (name, some p)) := by
    rw [own, ← List.filter_reverse, List.find?_filter]
    congr 1
    funext r
    simp [place, Bool.decide_and, beq_eq_decide]
  rw [cellAt, hfind]
  cases h : rs.reverse.find? fun r => decide (r.place = (name, some p)) with
  | none =>
    refine .unreported fun r hr hplace => ?_
    have := List.find?_eq_none.1 h r (List.mem_reverse.2 hr)
    simp [hplace] at this
  | some r => exact .reported (by simpa using lastWith_of_find? h)

/-- **Cells go up to the greatest position.** -/
theorem cellsOf_cells (h : ∃ r ∈ rs, ∃ p, r.place = (name, some p)) : CellsOf rs name (cells (own rs name)) := by
  have hlt {i : Nat} : i < extent (own rs name) ↔ ∃ r ∈ rs, ∃ q, r.place = (name, some q) ∧ i ≤ q := by
    simp only [lt_extent, mem_own, place, Prod.mk.injEq, and_assoc, exists_and_left]
  have hlength : (cells (own rs name)).length = extent (own rs name) := by
    rw [cells, List.length_map, List.length_range]
  constructor
  · obtain ⟨r, hr, p, hp⟩ := h
    have hpos : 0 < extent (own rs name) := hlt.2 ⟨r, hr, p, hp, Nat.zero_le p⟩
    obtain ⟨s, hs, q, hq, hle⟩ := hlt.1 (Nat.sub_lt hpos Nat.one_pos)
    have hmax : ∀ t ∈ rs, ∀ i, t.place = (name, some i) → i < extent (own rs name) :=
      fun t ht i hi => hlt.2 ⟨t, ht, i, hi, Nat.le_refl i⟩
    have hqlt := hmax s hs q hq
    refine ⟨q, ⟨s, hs, hq⟩, fun t ht i hi => ?_, ?_⟩
    · have := hmax t ht i hi
      omega
    · omega
  · intro i cell hi
    obtain ⟨hlt, rfl⟩ := List.getElem?_eq_some_iff.1 hi
    simp only [cells, List.getElem_map, List.getElem_range]
    exact cellOf_cellAt rs name i

/-- **Cells that are cut into rows** have the shape of their name. -/
theorem rowsOf_unflatten (m : MatrixName) (h : ∃ r ∈ rs, ∃ p, r.place = (name, some p)) :
    RowsOf rs name m (unflatten (cells (own rs name)) m.rows m.cols) where
  reported := h
  length := length_unflatten _ _ _
  cols := fun _ hrow => length_of_mem_unflatten hrow
  cell := by
    intro r c row cell hrow hcell
    obtain ⟨hr, rfl⟩ := List.getElem?_eq_some_iff.1 hrow
    obtain ⟨hc, rfl⟩ := List.getElem?_eq_some_iff.1 hcell
    simp only [unflatten, List.getElem_map, List.getElem_range, List.getElem?_toArray, join_getElem?_cells]
    exact cellOf_cellAt rs name _

/-- **A gathered value, once it is cut into rows, is the entry of its name.** -/
theorem entryOf_reshape {x : SolvedValue} (h : valueOf? (own rs name) = some x) :
    EntryOf rs name (reshape (name, x)) := by
  obtain ⟨last, hlast, hx⟩ := Option.map_eq_some_iff.1 h
  obtain ⟨hmem, hname⟩ := mem_own.1 (List.mem_of_getLast? hlast)
  cases hp : last.position with
  | none =>
    simp only [hp, Option.isSome_none, Bool.false_eq_true, if_false] at hx
    subst hx
    exact .scalar (lastWith_of_getLast?_own hlast) hp
  | some p =>
    simp only [hp, Option.isSome_some, if_true] at hx
    subst hx
    have hreported : ∃ r ∈ rs, ∃ p, r.place = (name, some p) := ⟨last, hmem, p, by simp [place, hname, hp]⟩
    cases hm : MatrixName.ofText? name with
    | none =>
      simp only [reshape, hm]
      exact .sequence hm (cellsOf_cells hreported)
    | some m =>
      simp only [reshape, hm]
      exact .matrix hm (rowsOf_unflatten m hreported)

/-- Entries that are gathered are, once they are cut into rows, those of the names in order. -/
theorem Gathered.entryOf {entries : OrderedMap SolvedValue} (hg : Gathered rs entries) :
    List.Forall₂ (EntryOf rs) (rs.map Record.name).eraseDups (entries.map reshape) := by
  rw [← hg.keys, OrderedMap.keys, List.forall₂_map_left_iff, List.forall₂_map_right_iff, List.forall₂_same]
  rintro ⟨name, x⟩ hentry
  exact entryOf_reshape (hg.valueOf?_of_mem hentry)

end Entries

/-- **Without a fault, each name has its entry**, and the entries are the solution unless two have one name. -/
theorem exists_entries_of_sound {records : List Json} (h : Sound records) : ∃ rs entries,
    List.Forall₂ Holds records rs ∧ List.Forall₂ (EntryOf rs) (rs.map Record.name).eraseDups entries ∧
      ((OrderedMap.keys entries).Nodup → ofRecords records = .ok ⟨entries⟩) ∧
      (¬ (OrderedMap.keys entries).Nodup → ∃ before name x after, entries = before ++ (name, x) :: after ∧
        (OrderedMap.keys before).Nodup ∧ name ∈ OrderedMap.keys before ∧
          ofRecords records = .error (.shapeConflict name)) := by
  obtain ⟨rs, hp, hc⟩ := exists_parsed_of_sound h
  obtain ⟨entries, hg, hof⟩ := ofRecords_eq_of_consistent hp hc
  refine ⟨rs, entries.map reshape, hp.imp fun _ _ => ofJson_eq_ok.1, hg.entryOf, fun hn => ?_, fun hn => ?_⟩
  · rw [hof, collect_nil_eq_ok.2 ⟨hn, rfl⟩]
    rfl
  · cases hcollect : collect (entries.map reshape) [] with
    | ok out => exact absurd (collect_nil_eq_ok.1 hcollect).1 hn
    | error e =>
      obtain ⟨before, name, x, after, hsplit, hbefore, hmem, rfl⟩ := exists_repeated_of_collect_nil hcollect
      refine ⟨before, name, x, after, hsplit, hbefore, hmem, ?_⟩
      rw [hof, hcollect]
      rfl

end Solution

end SolverClient
