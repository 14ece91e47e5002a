import SolverClient.Cutoff
import SolverClient.Proofs.Json.WellFormed

/-!
# Cutoffs are read back

An object **describes** a cutoff (`Cutoff.Describes`) if the fields of its tag hold the numbers of the cutoff and, where
the cutoff is composed, objects that describe its parts. The reader accepts just what describes a cutoff
(`Cutoff.ofFields_eq_ok`), so that all laws of reading are inductions on descriptions: what was read has words for
integers (`Cutoff.Describes.inWords`) and, from a document that a text can hold, finite doubles
(`Cutoff.Describes.isFinite`), and a cutoff like that is described by its own fields (`Cutoff.describes_toFields`).
-/

namespace SolverClient.Cutoff

/-- The object holds the fields of the cutoff, and objects that describe its parts. -/
inductive Describes : Fields → Cutoff → Prop
  | constant {d : Fields} {value : Int} (tag : d.string "name" = .ok "constant") (hv : d.integer "value" = .ok value) :
      Describes d (.constant value)
  | fibonacci {d : Fields} (tag : d.string "name" = .ok "fibonacci") : Describes d .fibonacci
  | geometric {d : Fields} {scale : Int} {base : Float} (tag : d.string "name" = .ok "geometric")
      (hs : d.integer "scale" = .ok scale) (hb : d.number "base" = .ok base) : Describes d (.geometric scale base)
  | luby {d : Fields} {scale : Int} (tag : d.string "name" = .ok "luby") (hs : d.integer "scale" = .ok scale) :
      Describes d (.luby scale)
  | linear {d : Fields} {scale : Int} (tag : d.string "name" = .ok "linear") (hs : d.integer "scale" = .ok scale) :
      Describes d (.linear scale)
  | random {d : Fields} {seed min max round : Int} (tag : d.string "name" = .ok "random")
      (hs : d.integer "seed" = .ok seed) (hl : d.integer "min" = .ok min) (hu : d.integer "max" = .ok max)
      (hr : d.integer "round" = .ok round) : Describes d (.random seed min max round)
  | appender {d e f : Fields} {first second : Cutoff} {count : Int} (tag : d.string "name" = .ok "appender")
      (he : d.get? "first_cutoff" = some (.obj e)) (hfirst : Describes e first)
      (hc : d.integer "number_from_first" = .ok count) (hf : d.get? "second_cutoff" = some (.obj f))
      (hsecond : Describes f second) : Describes d (.appender first count second)
  | merger {d e f : Fields} {first second : Cutoff} (tag : d.string "name" = .ok "merger")
      (he : d.get? "first_cutoff" = some (.obj e)) (hfirst : Describes e first)
      (hf : d.get? "second_cutoff" = some (.obj f)) (hsecond : Describes f second) :
      Describes d (.merger first second)
  | repeater {d e : Fields} {sub : Cutoff} {times : Int} (tag : d.string "name" = .ok "repeater")
      (he : d.get? "sub_cutoff" = some (.obj e)) (hsub : Describes e sub) (ht : d.integer "repeat" = .ok times) :
      Describes d (.repeater sub times)

/-! ## The reader accepts descriptions -/

theorem child_eq_ok {d : Fields} {key : String} {e : { e : Fields // sizeOf e < sizeOf d }} :
    child d key = .ok e ↔ d.get? key = some (.obj e.1) := by
  unfold child
  split
  · rename_i h
    simp [h]
  · rename_i f h
    simp [h, Subtype.ext_iff, eq_comm]
  · rename_i v hv h
    have hv : v ≠ .obj e.1 := hv e.1
    simp [h, hv]

/-- What is read was described. The recursion is that of the reader, into smaller objects. -/
theorem describes_of_ofFields {d : Fields} {c : Cutoff} (h : ofFields d = .ok c) : Describes d c := by
  rw [ofFields] at h
  simp only [Except.bind_eq_ok] at h
  obtain ⟨tag, ht, h⟩ := h
  split at h
  · rename_i hc
    simp only [Except.bind_eq_ok, Except.pure_eq_ok] at h
    obtain ⟨value, hv, rfl⟩ := h
    exact .constant (hc ▸ ht) hv
  split at h
  · rename_i hc
    cases h
    exact .fibonacci (hc ▸ ht)
  split at h
  · rename_i hc
    simp only [Except.bind_eq_ok, Except.pure_eq_ok] at h
    obtain ⟨scale, hs, base, hb, rfl⟩ := h
    exact .geometric (hc ▸ ht) hs hb
  split at h
  · rename_i hc
    simp only [Except.bind_eq_ok, Except.pure_eq_ok] at h
    obtain ⟨scale, hs, rfl⟩ := h
    exact .luby (hc ▸ ht) hs
  split at h
  · rename_i hc
    simp only [Except.bind_eq_ok, Except.pure_eq_ok] at h
    obtain ⟨scale, hs, rfl⟩ := h
    exact .linear (hc ▸ ht) hs
  split at h
  · rename_i hc
    simp only [Except.bind_eq_ok, Except.pure_eq_ok] at h
    obtain ⟨seed, hs, min, hl, max, hu, round, hr, rfl⟩ := h
    exact .random (hc ▸ ht) hs hl hu hr
  split at h
  · rename_i hc
    simp only [Except.bind_eq_ok, Except.pure_eq_ok] at h
    obtain ⟨⟨e, hlt⟩, he, first, hfirst, count, hcount, ⟨f, hlt'⟩, hf, second, hsecond, rfl⟩ := h
    exact .appender (hc ▸ ht) (child_eq_ok.1 he) (describes_of_ofFields hfirst) hcount (child_eq_ok.1 hf)
      (describes_of_ofFields hsecond)
  split at h
  · rename_i hc
    simp only [Except.bind_eq_ok, Except.pure_eq_ok] at h
    obtain ⟨⟨e, hlt⟩, he, first, hfirst, ⟨f, hlt'⟩, hf, second, hsecond, rfl⟩ := h
    exact .merger (hc ▸ ht) (child_eq_ok.1 he) (describes_of_ofFields hfirst) (child_eq_ok.1 hf)
      (describes_of_ofFields hsecond)
  split at h
  · rename_i hc
    simp only [Except.bind_eq_ok, Except.pure_eq_ok] at h
    obtain ⟨⟨e, hlt⟩, he, sub, hsub, times, htimes, rfl⟩ := h
    exact .repeater (hc ▸ ht) (child_eq_ok.1 he) (describes_of_ofFields hsub) htimes
  · cases h
termination_by sizeOf d

/-- The object that a reader goes into, as the reader finds it. -/
theorem child_of_get? {d e : Fields} {key : String} (h : d.get? key = some (.obj e)) :
    ∃ hlt, child d key = .ok ⟨e, hlt⟩ := by
  have hlt := sizeOf_lt_of_get? h
  rw [Json.obj.sizeOf_spec] at hlt
  exact ⟨by omega, child_eq_ok.2 h⟩

theorem ofFields_of_describes {d : Fields} {c : Cutoff} (h : Describes d c) : ofFields d = .ok c := by
  induction h with
  | constant tag hv => rw [ofFields]; simp [tag, hv]
  | fibonacci tag => rw [ofFields]; simp [tag]
  | geometric tag hs hb => rw [ofFields]; simp [tag, hs, hb]
  | luby tag hs => rw [ofFields]; simp [tag, hs]
  | linear tag hs => rw [ofFields]; simp [tag, hs]
  | random tag hs hl hu hr => rw [ofFields]; simp [tag, hs, hl, hu, hr]
  | appender tag he _ hc hf _ first second =>
    obtain ⟨_, he⟩ := child_of_get? he
    obtain ⟨_, hf⟩ := child_of_get? hf
    rw [ofFields]
    simp [tag, he, first, hc, hf, second]
  | merger tag he _ hf _ first second =>
    obtain ⟨_, he⟩ := child_of_get? he
    obtain ⟨_, hf⟩ := child_of_get? hf
    rw [ofFields]
    simp [tag, he, first, hf, second]
  | repeater tag he _ ht sub =>
    obtain ⟨_, he⟩ := child_of_get? he
    rw [ofFields]
    simp [tag, he, sub, ht]

/-- **The reader accepts an object iff it describes a cutoff, and then reads that.** -/
theorem ofFields_eq_ok {d : Fields} {c : Cutoff} : ofFields d = .ok c ↔ Describes d c :=
  ⟨describes_of_ofFields, ofFields_of_describes⟩

/-! ## Cutoffs that can be written -/

/-- All integers of a cutoff are words. -/
def InWords : Cutoff → Prop
  | constant value => Word.isSigned value = true
  | fibonacci => True
  | geometric scale _ => Word.isSigned scale = true
  | luby scale => Word.isSigned scale = true
  | linear scale => Word.isSigned scale = true
  | random seed min max round =>
    Word.isSigned seed = true ∧ Word.isSigned min = true ∧ Word.isSigned max = true ∧ Word.isSigned round = true
  | appender first count second => first.InWords ∧ Word.isSigned count = true ∧ second.InWords
  | merger first second => first.InWords ∧ second.InWords
  | repeater sub times => sub.InWords ∧ Word.isSigned times = true

/-- All doubles of a cutoff are finite. -/
def IsFinite : Cutoff → Prop
  | geometric _ base => base.isFinite = true
  | appender first _ second => first.IsFinite ∧ second.IsFinite
  | merger first second => first.IsFinite ∧ second.IsFinite
  | repeater sub _ => sub.IsFinite
  | _ => True

/-- A cutoff that can be written is described by its fields. -/
theorem describes_toFields {c : Cutoff} (hw : c.InWords) (hf : c.IsFinite) : Describes c.toFields c := by
  induction c with
  | constant value => exact .constant rfl (Fields.integer_of_get? rfl hw)
  | fibonacci => exact .fibonacci rfl
  | geometric scale base =>
    simp only [IsFinite] at hf
    have hbase : (geometric scale base).toFields.get? "base" = some (.float base) := by
      simp [toFields, Numeric.toJson, hf]
    exact .geometric rfl (Fields.integer_of_get? rfl hw) (Fields.number_of_get? hbase)
  | luby scale => exact .luby rfl (Fields.integer_of_get? rfl hw)
  | linear scale => exact .linear rfl (Fields.integer_of_get? rfl hw)
  | random seed min max round =>
    obtain ⟨hs, hl, hu, hr⟩ := hw
    exact .random rfl (Fields.integer_of_get? rfl hs) (Fields.integer_of_get? rfl hl) (Fields.integer_of_get? rfl hu)
      (Fields.integer_of_get? rfl hr)
  | appender first count second ihFirst ihSecond =>
    obtain ⟨hwf, hc, hws⟩ := hw
    exact .appender rfl rfl (ihFirst hwf hf.1) (Fields.integer_of_get? rfl hc) rfl (ihSecond hws hf.2)
  | merger first second ihFirst ihSecond => exact .merger rfl rfl (ihFirst hw.1 hf.1) rfl (ihSecond hw.2 hf.2)
  | repeater sub times ih => exact .repeater rfl rfl (ih hw.1 hf) (Fields.integer_of_get? rfl hw.2)

/-- **A cutoff is read back** if its integers are words and its doubles finite. -/
theorem ofFields_toFields {c : Cutoff} (hw : c.InWords) (hf : c.IsFinite) : ofFields c.toFields = .ok c :=
  ofFields_of_describes (describes_toFields hw hf)

/-- A text can hold the fields of a cutoff. -/
theorem wellFormed_toFields {c : Cutoff} (hw : c.InWords) : (Json.obj c.toFields).WellFormed := by
  induction c with
  | constant value => simp [toFields, Json.WellFormed.int_of_isSigned hw]
  | fibonacci => simp [toFields]
  | geometric scale base =>
    have hbase : (Numeric.float base).toJson.WellFormed := Numeric.wellFormed_toJson trivial
    simp [toFields, Json.WellFormed.int_of_isSigned hw, hbase]
  | luby scale => simp [toFields, Json.WellFormed.int_of_isSigned hw]
  | linear scale => simp [toFields, Json.WellFormed.int_of_isSigned hw]
  | random seed min max round =>
    obtain ⟨hs, hl, hu, hr⟩ := hw
    simp [toFields, Json.WellFormed.int_of_isSigned hs, Json.WellFormed.int_of_isSigned hl,
      Json.WellFormed.int_of_isSigned hu, Json.WellFormed.int_of_isSigned hr]
  | appender first count second ihFirst ihSecond =>
    obtain ⟨hwf, hc, hws⟩ := hw
    simp [toFields, ihFirst hwf, Json.WellFormed.int_of_isSigned hc, ihSecond hws]
  | merger first second ihFirst ihSecond => simp [toFields, ihFirst hw.1, ihSecond hw.2]
  | repeater sub times ih => simp [toFields, ih hw.1, Json.WellFormed.int_of_isSigned hw.2]

/-! ## What was described -/

namespace Describes

variable {d : Fields} {c : Cutoff}

theorem inWords (h : Describes d c) : c.InWords := by
  induction h with
  | constant _ hv => exact Fields.isSigned_of_integer hv
  | fibonacci _ => trivial
  | geometric _ hs _ => exact Fields.isSigned_of_integer hs
  | luby _ hs => exact Fields.isSigned_of_integer hs
  | linear _ hs => exact Fields.isSigned_of_integer hs
  | random _ hs hl hu hr =>
    exact ⟨Fields.isSigned_of_integer hs, Fields.isSigned_of_integer hl, Fields.isSigned_of_integer hu,
      Fields.isSigned_of_integer hr⟩
  | appender _ _ _ hc _ _ first second => exact ⟨first, Fields.isSigned_of_integer hc, second⟩
  | merger _ _ _ _ _ first second => exact ⟨first, second⟩
  | repeater _ _ _ ht sub => exact ⟨sub, Fields.isSigned_of_integer ht⟩

theorem isFinite (h : Describes d c) (hd : (Json.obj d).WellFormed) : c.IsFinite := by
  induction h with
  | geometric _ _ hb => exact Fields.isFinite_of_number hd hb
  | appender _ he _ _ hf _ first second => exact ⟨first (hd.get? he), second (hd.get? hf)⟩
  | merger _ he _ hf _ first second => exact ⟨first (hd.get? he), second (hd.get? hf)⟩
  | repeater _ he _ _ sub => exact sub (hd.get? he)
  | _ => trivial

end Describes

end SolverClient.Cutoff
