import Mathlib.Data.List.Forall2
import Mathlib.Data.List.Induction
import SolverClient.Proofs.Field
import SolverClient.Proofs.OrderedMap
import SolverClient.Proofs.Solution.Own

/-!
# What a list of records says

The entries that are **gathered** from records (`Solution.Gathered`) have the names of the records in the order in which
they first come, each with the value of its own records. A list of records is gathered iff every item is a record and
the records of each name are uniform (`Solution.exists_gather`, `Solution.gathered_of_gather`). A solution is that, with
the matrices cut into rows, if no two variables end up under one name (`Solution.ofRecords_of_consistent`,
`Solution.exists_of_ofRecords`).
-/

namespace SolverClient

/-! ## Names in order -/

section Names

variable {α : Type} [BEq α] [LawfulBEq α]

theorem eraseDups_append_singleton (l : List α) (a : α) [Decidable (a ∈ l)] :
    (l ++ [a]).eraseDups = if a ∈ l then l.eraseDups else l.eraseDups ++ [a] := by
  rw [List.eraseDups_append]
  split
  · rename_i h
    simp [List.removeAll, h]
  · rename_i h
    simp [List.removeAll, h, List.eraseDups_cons]

theorem nodup_eraseDups (l : List α) : l.eraseDups.Nodup := by
  classical
  induction l using List.reverseRecOn with
  | nil => exact List.nodup_nil
  | append_singleton l a ih =>
    rw [eraseDups_append_singleton]
    split
    · exact ih
    · rename_i h
      rw [List.nodup_append]
      refine ⟨ih, List.nodup_singleton a, fun b hb c hc => ?_⟩
      rw [List.mem_singleton.1 hc]
      rintro rfl
      exact h (List.mem_eraseDups.1 hb)

end Names

namespace Record

/-- Positions are words. -/
theorem lt_bound64_of_le_maxPosition {n : Nat} (h : n ≤ maxPosition) : n < Word.bound64 := by
  have hmax : maxPosition < Word.bound64 := by decide
  exact Nat.lt_of_le_of_lt h hmax

theorem positionOf_of_get?_none {d : Fields} (h : d.get? "position" = none) : positionOf d = .ok none := by
  simp only [positionOf, h]

/-- A position is a count up to the greatest position. -/
theorem positionOf_eq_ok {d : Fields} {v : Json} {p : Option Nat} (h : d.get? "position" = some v) :
    positionOf d = .ok p ↔ ∃ n, v.asCount? = some n ∧ n ≤ maxPosition ∧ p = some n := by
  unfold positionOf
  rw [h]
  cases hcount : v.asCount? with
  | none => simp [hcount]
  | some n =>
    by_cases hn : n ≤ maxPosition
    · simp [hcount, hn, eq_comm]
    · simp [hcount, hn]

/-- A count past the greatest position is refused. -/
theorem positionOf_of_gt {d : Fields} {v : Json} {n : Nat} (h : d.get? "position" = some v) (hv : v.asCount? = some n)
    (hn : maxPosition < n) : positionOf d = .error (.positionTooGreat n) := by
  simp only [positionOf, h, hv, Nat.not_le.2 hn, if_false]

/-- The records of a name. -/
def own (rs : List Record) (name : String) : List Record := rs.filter fun r => r.name == name

/-- The records of each name are uniform. -/
def Consistent (rs : List Record) : Prop := ∀ name, Uniform (own rs name)

section Own

variable {rs rs' : List Record} {r : Record} {name : String}

theorem mem_own : r ∈ own rs name ↔ r ∈ rs ∧ r.name = name := by simp [own]

theorem own_append_self : own (rs ++ [r]) r.name = own rs r.name ++ [r] := by simp [own]

theorem own_append_of_ne (h : r.name ≠ name) : own (rs ++ [r]) name = own rs name := by simp [own, h]

theorem own_perm (hp : rs.Perm rs') (name : String) : (own rs name).Perm (own rs' name) := hp.filter _

theorem Consistent.perm (h : Consistent rs) (hp : rs.Perm rs') : Consistent rs' :=
  fun name => (h name).perm (own_perm hp name)

/-- One more record goes with the earlier ones if it is of the same kind as those of its name. -/
theorem consistent_append_iff : Consistent (rs ++ [r]) ↔
    Consistent rs ∧ ∀ s ∈ rs, s.name = r.name → s.position.isSome = r.position.isSome := by
  constructor
  · intro h
    have hown := h r.name
    rw [own_append_self] at hown
    refine ⟨fun name => ?_, fun s hs hname => (uniform_append_iff.1 hown).2 s (mem_own.2 ⟨hs, hname⟩)⟩
    by_cases hname : r.name = name
    · exact hname ▸ (uniform_append_iff.1 hown).1
    · exact own_append_of_ne hname ▸ h name
  · rintro ⟨hc, hr⟩ name
    by_cases hname : r.name = name
    · subst hname
      rw [own_append_self]
      refine uniform_append_iff.2 ⟨hc r.name, fun s hs => ?_⟩
      obtain ⟨hs, hsname⟩ := mem_own.1 hs
      exact hr s hs hsname
    · rw [own_append_of_ne hname]
      exact hc name

theorem Consistent.left (h : Consistent (rs ++ rs')) : Consistent rs := by
  intro name s hs t ht
  have hmem : ∀ u ∈ own rs name, u ∈ own (rs ++ rs') name := by
    intro u hu
    rw [mem_own] at hu ⊢
    exact ⟨List.mem_append_left _ hu.1, hu.2⟩
  exact h name s (hmem s hs) t (hmem t ht)

end Own

end Record

namespace Solution

open Record

/-- The entries have the names of the records, in the order in which they first come, and the values of their
records. -/
structure Gathered (rs : List Record) (entries : OrderedMap SolvedValue) : Prop where
  keys : entries.keys = (rs.map Record.name).eraseDups
  get? : ∀ name, entries.get? name = valueOf? (own rs name)

section Steps

variable {rs : List Record} {r : Record} {entries : OrderedMap SolvedValue}

theorem gathered_nil : Gathered [] [] := ⟨rfl, fun _ => rfl⟩

theorem Gathered.nodup (h : Gathered rs entries) : entries.keys.Nodup := by
  rw [h.keys]
  exact nodup_eraseDups _

/-- An entry has the value of its records. -/
theorem Gathered.valueOf?_of_mem {name : String} {x : SolvedValue} (h : Gathered rs entries)
    (hmem : (name, x) ∈ entries) : valueOf? (own rs name) = some x :=
  (h.get? name).symm.trans (OrderedMap.get?_of_mem h.nodup hmem)

theorem Gathered.mem_keys (h : Gathered rs entries) {name : String} :
    name ∈ entries.keys ↔ ∃ r ∈ rs, r.name = name := by
  rw [h.keys, List.mem_eraseDups, List.mem_map]

/-- The names of the entries, up to their order, are any list of the names of the records without duplicates. -/
theorem Gathered.keys_perm {names : List String} (h : Gathered rs entries) (hn : names.Nodup)
    (hnames : ∀ name, name ∈ names ↔ ∃ r ∈ rs, r.name = name) : entries.keys.Perm names := by
  refine (List.perm_ext_iff_of_nodup h.nodup hn).2 fun name => ?_
  rw [h.mem_keys, hnames]

/-- One more record, merged into the value of its name. -/
theorem Gathered.insert {x : SolvedValue} (h : Gathered rs entries) (hx : valueOf? (own (rs ++ [r]) r.name) = some x) :
    Gathered (rs ++ [r]) (entries.insert r.name x) := by
  constructor
  · rw [OrderedMap.keys_insert, h.keys, List.map_append, List.map_singleton, eraseDups_append_singleton]
    simp only [List.mem_eraseDups]
  · intro name
    rw [OrderedMap.get?_insert]
    split
    · rename_i hname
      rw [hname, hx]
    · rename_i hname
      rw [own_append_of_ne (Ne.symm hname), h.get?]

/-- **A record that goes with the earlier ones is gathered.** -/
theorem Gathered.exists_merge (h : Gathered rs entries) (hc : Consistent (rs ++ [r])) :
    ∃ x, merge (entries.get? r.name) r = .ok x ∧ Gathered (rs ++ [r]) (entries.insert r.name x) := by
  have hu := hc r.name
  rw [own_append_self] at hu
  obtain ⟨x, hm, hx⟩ := Record.exists_merge hu
  refine ⟨x, by rw [h.get?, hm], h.insert ?_⟩
  rw [own_append_self, hx]

/-- **A record that is gathered goes with the earlier ones.** -/
theorem Gathered.consistent {x : SolvedValue} (h : Gathered rs entries) (hc : Consistent rs)
    (hm : merge (entries.get? r.name) r = .ok x) : Consistent (rs ++ [r]) := by
  intro name
  by_cases hname : r.name = name
  · subst hname
    rw [h.get?] at hm
    rw [own_append_self]
    exact uniform_of_merge (hc r.name) hm
  · rw [own_append_of_ne hname]
    exact hc name

/-- **A record that does not go with the earlier ones makes a conflict.** -/
theorem Gathered.merge_eq_error (h : Gathered rs entries) (hc : Consistent rs) (hn : ¬ Consistent (rs ++ [r])) :
    merge (entries.get? r.name) r = .error (.shapeConflict r.name) := by
  cases hm : merge (entries.get? r.name) r with
  | ok x => exact absurd (h.consistent hc hm) hn
  | error e => rw [Record.merge_eq_error hm]

end Steps

/-! ## All records -/

section Runs

variable {records : List Json} {rs done : List Record} {entries out : OrderedMap SolvedValue} {index : Nat}

/-- The values are the records. -/
def Parsed (records : List Json) (rs : List Record) : Prop :=
  List.Forall₂ (fun v r => Record.ofJson v = .ok r) records rs

/-- Consistent records are gathered, whatever comes after them. -/
theorem exists_gather_append (index : Nat) (hp : Parsed records rs) (h : Gathered done entries)
    (hc : Consistent (done ++ rs)) : ∃ out, Gathered (done ++ rs) out ∧
      ∀ after, gather index entries (records ++ after) = gather (index + records.length) out after := by
  induction hp generalizing index entries done with
  | nil => exact ⟨entries, by rwa [List.append_nil], fun _ => rfl⟩
  | @cons v r records rs hr _ ih =>
    rw [List.append_cons] at hc ⊢
    obtain ⟨x, hm, hx⟩ := h.exists_merge hc.left
    obtain ⟨out, hg, hout⟩ := ih (index + 1) hx hc
    refine ⟨out, hg, fun after => ?_⟩
    simp only [List.cons_append, gather, hr, hm, Except.ok_bind, hout, List.length_cons, Nat.add_assoc, Nat.add_comm 1]

theorem exists_gather (index : Nat) (hp : Parsed records rs) (h : Gathered done entries)
    (hc : Consistent (done ++ rs)) : ∃ out, gather index entries records = .ok out ∧ Gathered (done ++ rs) out := by
  obtain ⟨out, hg, hout⟩ := exists_gather_append index hp h hc
  exact ⟨out, by rw [← List.append_nil records, hout, gather], hg⟩

theorem gathered_of_gather (h : gather index entries records = .ok out) (hg : Gathered done entries)
    (hc : Consistent done) : ∃ rs, Parsed records rs ∧ Consistent (done ++ rs) ∧ Gathered (done ++ rs) out := by
  induction records generalizing index entries done with
  | nil =>
    cases h
    exact ⟨[], .nil, by rwa [List.append_nil], by rwa [List.append_nil]⟩
  | cons v records ih =>
    rw [gather] at h
    split at h
    · cases h
    · rename_i r hr
      obtain ⟨x, hm, h⟩ := Except.bind_eq_ok.1 h
      have hc' := hg.consistent hc hm
      obtain ⟨x', hm', hx⟩ := hg.exists_merge hc'
      rw [hm] at hm'
      cases hm'
      obtain ⟨rs, hp, hcs, hgs⟩ := ih h hx hc'
      have happend : done ++ r :: rs = done ++ [r] ++ rs := List.append_cons ..
      rw [← happend] at hcs hgs
      exact ⟨r :: rs, .cons hr hp, hcs, hgs⟩

/-- All that is gathered is what the records hold, and they go together. -/
theorem exists_of_gather (h : gather index [] records = .ok out) :
    ∃ rs, Parsed records rs ∧ Consistent rs ∧ Gathered rs out :=
  gathered_of_gather h gathered_nil fun _ s hs => by cases hs

/-- **Gathering meets a conflict only where records that were read do not go together.** -/
theorem not_consistent_of_gather {name : String} (h : gather index entries records = .error (.shapeConflict name))
    (hg : Gathered done entries) :
    ∃ rs, (∀ r ∈ rs, ∃ v ∈ records, Record.ofJson v = .ok r) ∧ ¬ Consistent (done ++ rs) := by
  induction records generalizing index entries done with
  | nil => cases h
  | cons v records ih =>
    rw [gather] at h
    split at h
    · cases h
    · rename_i r hr
      -- The first record that does not go with the earlier ones is the one that merging refuses.
      by_cases hc : Consistent (done ++ [r])
      · obtain ⟨x, hm, hx⟩ := hg.exists_merge hc
        rw [hm, Except.ok_bind] at h
        obtain ⟨rs, hread, hcs⟩ := ih h hx
        refine ⟨r :: rs, fun s hs => ?_, by rwa [List.append_cons]⟩
        rcases List.mem_cons.1 hs with rfl | hs
        · exact ⟨v, List.mem_cons_self, hr⟩
        · obtain ⟨w, hw, hread⟩ := hread s hs
          exact ⟨w, List.mem_cons_of_mem _ hw, hread⟩
      · refine ⟨[r], fun s hs => ?_, hc⟩
        rw [List.mem_singleton.1 hs]
        exact ⟨v, List.mem_cons_self, hr⟩

end Runs

/-- **Entries are collected as they are if no name comes twice.** -/
theorem collect_eq_ok {l : List (String × SolvedValue)} {done out : OrderedMap SolvedValue} (hn : done.keys.Nodup) :
    collect l done = .ok out ↔ (OrderedMap.keys (done ++ l)).Nodup ∧ out = done ++ l := by
  induction l generalizing done with
  | nil => simp [collect, hn, eq_comm]
  | cons entry l ih =>
    obtain ⟨name, value⟩ := entry
    have happend : done ++ (name, value) :: l = done ++ [(name, value)] ++ l := List.append_cons ..
    rw [collect, happend]
    by_cases hc : done.contains name = true
    · have hmem := OrderedMap.contains_iff.1 hc
      rw [if_pos hc]
      constructor
      · intro h; cases h
      · rintro ⟨h, -⟩
        rw [← happend, OrderedMap.keys, List.map_append, List.map_cons] at h
        exact absurd rfl ((List.nodup_append.1 h).2.2 name hmem name List.mem_cons_self)
    · have hmem : name ∉ done.keys := fun h => hc (OrderedMap.contains_iff.2 h)
      rw [if_neg hc]
      exact ih (OrderedMap.nodup_keys_append_singleton.2 ⟨hn, hmem⟩)

theorem collect_nil_eq_ok {l : List (String × SolvedValue)} {out : OrderedMap SolvedValue} :
    collect l [] = .ok out ↔ (OrderedMap.keys l).Nodup ∧ out = l :=
  @collect_eq_ok l [] out List.nodup_nil

/-- The first name that comes again is refused. -/
theorem exists_repeated_of_collect {l : List (String × SolvedValue)} {done : OrderedMap SolvedValue} {e : SolutionError}
    (hn : done.keys.Nodup) (h : collect l done = .error e) : ∃ before name x after,
      l = before ++ (name, x) :: after ∧ (OrderedMap.keys (done ++ before)).Nodup ∧
        name ∈ OrderedMap.keys (done ++ before) ∧ e = .shapeConflict name := by
  induction l generalizing done with
  | nil => cases h
  | cons entry l ih =>
    obtain ⟨name, x⟩ := entry
    rw [collect] at h
    split at h
    · rename_i hc
      cases h
      exact ⟨[], name, x, l, rfl, by rwa [List.append_nil], by rwa [List.append_nil, ← OrderedMap.contains_iff], rfl⟩
    · rename_i hc
      have hdone : (OrderedMap.keys (done ++ [(name, x)])).Nodup :=
        OrderedMap.nodup_keys_append_singleton.2 ⟨hn, fun hmem => hc (OrderedMap.contains_iff.2 hmem)⟩
      obtain ⟨before, name', x', after, rfl, hbefore, hmem, he⟩ := ih hdone h
      rw [← List.append_cons] at hbefore hmem
      exact ⟨(name, x) :: before, name', x', after, rfl, hbefore, hmem, he⟩

theorem exists_repeated_of_collect_nil {l : List (String × SolvedValue)} {e : SolutionError} (h : collect l [] = .error e) :
    ∃ before name x after, l = before ++ (name, x) :: after ∧ (OrderedMap.keys before).Nodup ∧
      name ∈ OrderedMap.keys before ∧ e = .shapeConflict name :=
  @exists_repeated_of_collect l [] e List.nodup_nil h

/-! ## Solutions -/

/-- The names of reshaped entries are the names to show, if that is what reshaping makes of each key. -/
theorem keys_reshape_perm_of {α : Type} {l : List α} {key shown : α → String} {entries : OrderedMap SolvedValue}
    (hn : entries.keys.Nodup) (hkeys : entries.keys.Perm (l.map key))
    (h : ∀ a ∈ l, ∃ x, entries.get? (key a) = some x ∧ (reshape (key a, x)).1 = shown a) :
    (OrderedMap.keys (entries.map reshape)).Perm (l.map shown) := by
  -- The name of a reshaped entry depends on its key alone, as the value is that of the key.
  let name := fun k => (reshape (k, (entries.get? k).getD (.scalar none))).1
  have hentries : OrderedMap.keys (entries.map reshape) = entries.keys.map name := by
    rw [OrderedMap.keys, OrderedMap.keys, List.map_map, List.map_map]
    refine List.map_congr_left fun entry hentry => ?_
    simp [name, OrderedMap.get?_of_mem hn hentry]
  have hshown : (l.map key).map name = l.map shown := by
    rw [List.map_map]
    refine List.map_congr_left fun a ha => ?_
    obtain ⟨x, hx, hname⟩ := h a ha
    simp [name, hx, hname]
  rw [hentries, ← hshown]
  exact hkeys.map name

section Solutions

variable {records : List Json} {rs : List Record} {s : Solution}

/-- Consistent records are gathered, and what is left is to put the entries in order. -/
theorem ofRecords_eq_of_consistent (hp : Parsed records rs) (hc : Consistent rs) : ∃ entries, Gathered rs entries ∧
    ofRecords records = (collect (entries.map reshape) []).map Solution.mk := by
  obtain ⟨entries, he, hg⟩ := exists_gather 0 hp gathered_nil hc
  refine ⟨entries, hg, ?_⟩
  rw [ofRecords, he, Except.ok_bind]
  cases collect (entries.map reshape) [] <;> rfl

/-- **Consistent records make a solution**, if no two variables end up under one name. -/
theorem ofRecords_of_consistent (hp : Parsed records rs) (hc : Consistent rs) : ∃ entries, Gathered rs entries ∧
    ((OrderedMap.keys (entries.map reshape)).Nodup → ofRecords records = .ok ⟨entries.map reshape⟩) := by
  obtain ⟨entries, hg, h⟩ := ofRecords_eq_of_consistent hp hc
  refine ⟨entries, hg, fun hn => ?_⟩
  rw [h, collect_nil_eq_ok.2 ⟨hn, rfl⟩]
  rfl

/-- **If two variables end up under one name, consistent records make a conflict.** -/
theorem exists_conflict_of_consistent (hp : Parsed records rs) (hc : Consistent rs) :
    ∃ entries, Gathered rs entries ∧
      (¬ (OrderedMap.keys (entries.map reshape)).Nodup → ∃ name, ofRecords records = .error (.shapeConflict name)) := by
  obtain ⟨entries, hg, h⟩ := ofRecords_eq_of_consistent hp hc
  refine ⟨entries, hg, fun hn => ?_⟩
  rw [h]
  cases hcollect : collect (entries.map reshape) [] with
  | ok out => exact absurd (collect_nil_eq_ok.1 hcollect).1 hn
  | error e =>
    obtain ⟨-, name, -, -, -, -, -, rfl⟩ := exists_repeated_of_collect_nil hcollect
    exact ⟨name, rfl⟩

/-- **A conflict is about two entries of one name**, if the records that can be read go together. -/
theorem two_le_count_of_ofRecords {name : String} (h : ofRecords records = .error (.shapeConflict name))
    (hc : ∀ rs, (∀ r ∈ rs, ∃ v ∈ records, Record.ofJson v = .ok r) → Consistent rs) : ∃ rs entries,
      Parsed records rs ∧ Gathered rs entries ∧ 2 ≤ (OrderedMap.keys (entries.map reshape)).count name := by
  cases he : gather 0 [] records with
  | error e =>
    rw [ofRecords, he] at h
    cases h
    obtain ⟨rs, hread, hrs⟩ := not_consistent_of_gather he gathered_nil
    exact absurd (hc rs hread) hrs
  | ok entries =>
    obtain ⟨rs, hp, hrs, hg⟩ := exists_of_gather he
    obtain ⟨entries', hg', h'⟩ := ofRecords_eq_of_consistent hp hrs
    rw [h'] at h
    cases hcollect : collect (entries'.map reshape) [] with
    | ok out =>
      rw [hcollect] at h
      cases h
    | error e =>
      rw [hcollect] at h
      cases h
      obtain ⟨before, _, x, after, hentries, -, hmem, heq⟩ := exists_repeated_of_collect_nil hcollect
      cases heq
      have hcount : 0 < (OrderedMap.keys before).count name := List.count_pos_iff.2 hmem
      refine ⟨rs, entries', hp, hg', ?_⟩
      simp only [hentries, OrderedMap.keys, List.map_append, List.map_cons, List.count_append, List.count_cons_self] at hcount ⊢
      omega

/-- **A solution comes from consistent records.** -/
theorem exists_of_ofRecords (h : ofRecords records = .ok s) : ∃ rs entries, Parsed records rs ∧ Consistent rs ∧
    Gathered rs entries ∧ (OrderedMap.keys (entries.map reshape)).Nodup ∧ s.entries = entries.map reshape := by
  obtain ⟨entries, he, h⟩ := Except.bind_eq_ok.1 h
  obtain ⟨out, hout, h⟩ := Except.bind_eq_ok.1 h
  cases h
  obtain ⟨rs, hp, hc, hg⟩ := exists_of_gather he
  obtain ⟨hn, rfl⟩ := collect_nil_eq_ok.1 hout
  exact ⟨rs, entries, hp, hc, hg, hn, rfl⟩

end Solutions

end Solution

end SolverClient
