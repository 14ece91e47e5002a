import SolverClient.Proofs.Cutoff

/-!
# The parts of a cutoff

A cutoff and its document have parts under the same keys (`Cutoff.readKeys`), and a path of keys leads to a part in
either (`Cutoff.at?`, `Cutoff.fieldsAt?`). If an object describes a cutoff, then what it has at a path describes what
the cutoff has there (`Cutoff.Describes.at?`). So a cutoff is read back iff the bases at all paths are finite, the
names in a document are the tags of what was read, and a name that is no tag at any path has the document refused
(`Cutoff.ofFields_by_parts`).
-/

namespace SolverClient.Cutoff

/-! ## Paths -/

/-- The part of a sequence under a key. -/
def part? : Cutoff → (key : String) → Option Cutoff
  | appender first _ second, key =>
    if key = "first_cutoff" then some first else if key = "second_cutoff" then some second else none
  | merger first second, key =>
    if key = "first_cutoff" then some first else if key = "second_cutoff" then some second else none
  | repeater sub _, key => if key = "sub_cutoff" then some sub else none
  | _, _ => none

/-- The part at a path of keys. -/
def at? : Cutoff → (path : List String) → Option Cutoff
  | c, [] => some c
  | c, key :: path => (c.part? key).bind (at? · path)

/-- The keys under which the reader of a name goes into parts. -/
def readKeys (tag : String) : List String :=
  if tag = "appender" ∨ tag = "merger" then ["first_cutoff", "second_cutoff"]
  else if tag = "repeater" then ["sub_cutoff"]
  else []

/-- The object under a key where the reader goes into a part. -/
def fieldsOfPart? (d : Fields) (key : String) : Option Fields :=
  match d.get? "name" with
  | some (.str tag) => if key ∈ readKeys tag then (d.get? key).bind Json.asFields? else none
  | _ => none

/-- The object at a path on which the reader goes. -/
def fieldsAt? : Fields → (path : List String) → Option Fields
  | d, [] => some d
  | d, key :: path => (fieldsOfPart? d key).bind (fieldsAt? · path)

variable {c s : Cutoff} {d e : Fields} {path : List String} {key : String}

/-- All bases of a cutoff are finite if those at all paths are. -/
theorem isFinite_of_at? (h : ∀ path scale base, c.at? path = some (.geometric scale base) → base.isFinite = true) :
    c.IsFinite := by
  induction c with
  | geometric scale base => exact h [] scale base rfl
  | appender first count second ihFirst ihSecond =>
    exact ⟨ihFirst fun path => h ("first_cutoff" :: path), ihSecond fun path => h ("second_cutoff" :: path)⟩
  | merger first second ihFirst ihSecond =>
    exact ⟨ihFirst fun path => h ("first_cutoff" :: path), ihSecond fun path => h ("second_cutoff" :: path)⟩
  | repeater sub times ih => exact ih fun path => h ("sub_cutoff" :: path)
  | _ => trivial

/-! ## Documents -/

/-- A cutoff has parts under the keys of its tag only. -/
theorem part?_of_not_mem (h : key ∉ readKeys c.tag) : c.part? key = none := by
  cases c with
  | appender first count second =>
    obtain ⟨hfirst, hsecond⟩ := not_or.1 (mt List.mem_pair.2 h)
    simp [part?, hfirst, hsecond]
  | merger first second =>
    obtain ⟨hfirst, hsecond⟩ := not_or.1 (mt List.mem_pair.2 h)
    simp [part?, hfirst, hsecond]
  | repeater sub times => simp [part?, mt List.mem_singleton.2 h]
  | _ => rfl

theorem fieldsOfPart?_of_mem {tag : String} (hname : d.get? "name" = some (.str tag)) (hkey : key ∈ readKeys tag)
    (he : d.get? key = some (.obj e)) : fieldsOfPart? d key = some e := by
  simp [fieldsOfPart?, hname, hkey, he, Json.asFields?]

theorem fieldsOfPart?_of_not_mem {tag : String} (hname : d.get? "name" = some (.str tag)) (hkey : key ∉ readKeys tag) :
    fieldsOfPart? d key = none := by
  simp [fieldsOfPart?, hname, hkey]

namespace Describes

/-- The name of an object is the tag of the cutoff that it describes. -/
theorem get?_name (h : Describes d c) : d.get? "name" = some (.str c.tag) := by
  cases h <;> exact Fields.string_eq_ok.1 ‹_›

/-- **An object and the cutoff that it describes have the same parts.** -/
theorem part? (h : Describes d c) (key : String) : Option.Rel Describes (fieldsOfPart? d key) (c.part? key) := by
  have hname := h.get?_name
  by_cases hkey : key ∈ readKeys c.tag
  · cases h with
    | appender tag he hfirst hc hf hsecond =>
      rcases List.mem_pair.1 hkey with rfl | rfl
      · rw [fieldsOfPart?_of_mem hname hkey he]
        exact .some hfirst
      · rw [fieldsOfPart?_of_mem hname hkey hf]
        exact .some hsecond
    | merger tag he hfirst hf hsecond =>
      rcases List.mem_pair.1 hkey with rfl | rfl
      · rw [fieldsOfPart?_of_mem hname hkey he]
        exact .some hfirst
      · rw [fieldsOfPart?_of_mem hname hkey hf]
        exact .some hsecond
    | repeater tag he hsub ht =>
      obtain rfl := List.mem_singleton.1 hkey
      rw [fieldsOfPart?_of_mem hname hkey he]
      exact .some hsub
    | _ => cases hkey
  · rw [fieldsOfPart?_of_not_mem hname hkey, part?_of_not_mem hkey]
    exact .none

/-- **What an object has at a path describes what the cutoff has there.** -/
theorem at? (h : Describes d c) (path : List String) : Option.Rel Describes (fieldsAt? d path) (c.at? path) := by
  induction path generalizing d c with
  | nil => exact .some h
  | cons key path ih =>
    have hpart := h.part? key
    simp only [fieldsAt?, Cutoff.at?]
    generalize fieldsOfPart? d key = fields at hpart ⊢
    generalize c.part? key = sub at hpart ⊢
    cases hpart with
    | none => exact .none
    | some hpart => exact ih hpart

/-- An object with the name of geometric sequences has a number for a base. -/
theorem exists_base (h : Describes d c) (hname : d.get? "name" = some (.str "geometric")) :
    ∃ base, d.number "base" = .ok base := by
  have htag := h.get?_name
  rw [hname] at htag
  cases h with
  | geometric tag hs hb => exact ⟨_, hb⟩
  | _ => simp [Cutoff.tag] at htag

end Describes

/-! ## Fields that were written -/

theorem get?_toFields_name (c : Cutoff) : c.toFields.get? "name" = some (.str c.tag) := by
  cases c <;> rfl

/-- The fields of a part stand under its key. -/
theorem fieldsOfPart?_toFields (c : Cutoff) (key : String) :
    fieldsOfPart? c.toFields key = (c.part? key).map toFields := by
  have hname := c.get?_toFields_name
  by_cases hkey : key ∈ readKeys c.tag
  · cases c with
    | appender first count second =>
      rcases List.mem_pair.1 hkey with rfl | rfl <;> exact fieldsOfPart?_of_mem hname hkey rfl
    | merger first second =>
      rcases List.mem_pair.1 hkey with rfl | rfl <;> exact fieldsOfPart?_of_mem hname hkey rfl
    | repeater sub times =>
      obtain rfl := List.mem_singleton.1 hkey
      exact fieldsOfPart?_of_mem hname hkey rfl
    | _ => cases hkey
  · rw [fieldsOfPart?_of_not_mem hname hkey, part?_of_not_mem hkey, Option.map_none]

theorem fieldsAt?_toFields (c : Cutoff) (path : List String) :
    fieldsAt? c.toFields path = (c.at? path).map toFields := by
  induction path generalizing c with
  | nil => rfl
  | cons key path ih =>
    simp only [fieldsAt?, at?, fieldsOfPart?_toFields]
    cases c.part? key with
    | none => rfl
    | some sub => exact ih sub

/-- **A cutoff is written with all its bases if its fields are read at all.** -/
theorem Describes.isFinite_base {c' : Cutoff} (h : Describes c.toFields c') {scale : Int} {base : Float}
    (hs : c.at? path = some (.geometric scale base)) : base.isFinite = true := by
  have hpart := h.at? path
  rw [fieldsAt?_toFields, hs, Option.map_some] at hpart
  generalize c'.at? path = sub at hpart
  cases hpart with
  | some hpart =>
    obtain ⟨base', hbase⟩ := hpart.exists_base rfl
    obtain ⟨v, hv, hread⟩ := Fields.required_eq_ok.1 hbase
    obtain rfl : (Numeric.float base).toJson = v := Option.some.inj hv
    -- A base that is not finite is written as null, which no reader takes for a number.
    by_contra hinfinite
    simp [Numeric.toJson, hinfinite, Json.asFloat?] at hread

/-! ## The laws of reading -/

/-- All bases of the geometric sequences in a cutoff are finite. -/
def FiniteBases (c : Cutoff) : Prop :=
  ∀ path scale base, c.at? path = some (.geometric scale base) → base.isFinite = true

/-- What is read from the fields of a cutoff is that cutoff, and its bases are finite. -/
theorem eq_and_finiteBases_of_ofFields {c' : Cutoff} (hw : c.InWords) (h : ofFields c.toFields = .ok c') :
    c' = c ∧ c.FiniteBases := by
  have hfinite : c.FiniteBases := fun _ _ _ hs => (ofFields_eq_ok.1 h).isFinite_base hs
  have hread := ofFields_toFields hw (isFinite_of_at? hfinite)
  rw [h] at hread
  cases hread
  exact ⟨rfl, hfinite⟩

/-- The names at the paths of a document are the tags of what was read. -/
theorem Describes.names (h : Describes d c) (path : List String) :
    Option.Rel (fun e s => e.get? "name" = some (.str s.tag)) (fieldsAt? d path) (c.at? path) := by
  have hpart := h.at? path
  generalize fieldsAt? d path = fields at hpart ⊢
  generalize c.at? path = sub at hpart ⊢
  cases hpart with
  | none => exact .none
  | some hpart => exact .some hpart.get?_name

/-- **Reading and writing cutoffs, part by part.** A cutoff is read back from its fields iff all its bases are finite,
and otherwise refused. What was read from a document that a text can hold is read back, and has the names in the
document for tags, part by part. A document is refused if what it has at a path where the reader goes has no name of a
sequence. -/
theorem ofFields_by_parts :
    (∀ c : Cutoff, c.InWords → (ofFields c.toFields = .ok c ↔ c.FiniteBases) ∧
      (¬ c.FiniteBases → ∃ err, ofFields c.toFields = .error err)) ∧
    (∀ (d : Fields) (c : Cutoff), (Json.obj d).WellFormed → ofFields d = .ok c →
      ofFields c.toFields = .ok c ∧
      ∀ path, Option.Rel (fun e s => e.get? "name" = some (.str s.tag)) (fieldsAt? d path) (c.at? path)) ∧
    ∀ (d e : Fields) (path : List String), fieldsAt? d path = some e →
      (∀ c : Cutoff, e.get? "name" ≠ some (.str c.tag)) → ∃ err, ofFields d = .error err := by
  refine ⟨fun c hw => ⟨⟨fun h => ?_, fun h => ?_⟩, fun h => Except.exists_error fun c' hread => ?_⟩,
    fun d c hd hread => ?_, fun d e path he hunknown => Except.exists_error fun c hread => ?_⟩
  · exact (eq_and_finiteBases_of_ofFields hw h).2
  · exact ofFields_toFields hw (isFinite_of_at? h)
  · exact h (eq_and_finiteBases_of_ofFields hw hread).2
  · have hdescribes := ofFields_eq_ok.1 hread
    -- The integers are words since they were read, and the doubles are finite since a text can hold them.
    exact ⟨ofFields_toFields hdescribes.inWords (hdescribes.isFinite hd), hdescribes.names⟩
  · have hname := (ofFields_eq_ok.1 hread).names path
    rw [he] at hname
    generalize c.at? path = sub at hname
    cases hname with
    | some hname => exact hunknown _ hname

/-- The entries of two sequences, five times each; the name comes last. -/
def nestedDocument : Fields :=
  [("repeat", .int 5),
    ("sub_cutoff", .obj [("first_cutoff", .obj [("name", .str "fibonacci")]), ("name", .str "merger"),
      ("second_cutoff", .obj [("name", .str "luby"), ("scale", .int 4)])]),
    ("name", .str "repeater")]

/-- What that document says. -/
def nestedSample : Cutoff := .repeater (.merger .fibonacci (.luby 4)) 5

/-- A part whose name is misspelt. -/
def misspeltDocument : Fields :=
  [("name", .str "repeater"), ("sub_cutoff", .obj [("name", .str "fibonaci")]), ("repeat", .int 5)]

theorem ofFields_by_parts_documents :
    ofFields nestedDocument = .ok nestedSample ∧ nestedSample.FiniteBases ∧
    ofFields nestedSample.toFields = .ok nestedSample ∧
    (∃ e, fieldsAt? nestedDocument ["sub_cutoff", "second_cutoff"] = some e ∧
      nestedSample.at? ["sub_cutoff", "second_cutoff"] = some (.luby 4) ∧ e.get? "name" = some (.str "luby")) ∧
    (∀ x : Float, x.isFinite = false → ∃ err, ofFields (geometric 2 x).toFields = .error err) ∧
    ∃ err, ofFields misspeltDocument = .error err := by
  obtain ⟨hwritten, hread, hrefused⟩ := ofFields_by_parts
  have hdocument : ofFields nestedDocument = .ok nestedSample :=
    ofFields_eq_ok.2 (.repeater rfl rfl (.merger rfl rfl (.fibonacci rfl) rfl (.luby rfl rfl)) rfl)
  have hint : ∀ n : Int, Word.isSigned n = true → (Json.int n).WellFormed := fun _ => Json.WellFormed.int_of_isSigned
  have hformed : (Json.obj nestedDocument).WellFormed := by
    simp [nestedDocument, hint 5 (by decide), hint 4 (by decide)]
  obtain ⟨hback, hnames⟩ := hread nestedDocument nestedSample hformed hdocument
  have hwords : nestedSample.InWords := ⟨⟨trivial, rfl⟩, rfl⟩
  have hpart : Option.Rel _ (some ([("name", .str "luby"), ("scale", .int 4)] : Fields)) (some (luby 4)) :=
    hnames ["sub_cutoff", "second_cutoff"]
  refine ⟨hdocument, (hwritten nestedSample hwords).1.1 hback, hback, ?_, fun x hx => ?_, ?_⟩
  · cases hpart with
    | some hname => exact ⟨_, rfl, rfl, hname⟩
  · refine (hwritten (geometric 2 x) rfl).2 fun hfinite => ?_
    have htrue := hfinite [] 2 x rfl
    rw [hx] at htrue
    cases htrue
  · refine hrefused misspeltDocument [("name", .str "fibonaci")] ["sub_cutoff"] rfl fun c hname => ?_
    cases c <;> simp [tag] at hname

end SolverClient.Cutoff
