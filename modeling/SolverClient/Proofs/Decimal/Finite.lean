import SolverClient.Decimal.Binary
import SolverClient.Word

/-!
# Words are finite doubles

The double nearest to a word of 64 bits is finite (`isFinite_ofInt`), so that an integer of a document that is read as
a double can be written again. A double is finite iff its exponent is not the greatest one; the bits that `nearestBits`
gives for a word stay far below it (`nearestBits_lt`), and a change of sign keeps the exponent (`isFinite_neg`).
-/

namespace SolverClient.Decimal

open Float.Model Float.Model.UnpackedFloat

/-! ## Doubles by their exponent -/

section Exponents

variable {b : BitVec Format.binary64.numBits}

/-- Zero, or a number whose exponent is one of the doubles. -/
def InRange : UnpackedFloat → Prop
  | .zero _ => True
  | .finite _ _ e _ => e < 972
  | _ => False

/-- Bits with another exponent than the greatest one hold a number in range. -/
theorem inRange_unpack (h : unpackExponent b ≠ -1#_) : InRange (UnpackedFloat.unpack Format.binary64 b) := by
  have hlt : (unpackExponent b).toNat < 2047 := by
    have hb := (unpackExponent b).isLt
    have hne : (unpackExponent b).toNat ≠ 2047 := fun hn => h (BitVec.eq_of_toNat_eq (by rw [hn]; rfl))
    simp only at hb
    omega
  delta UnpackedFloat.unpack
  dsimp only
  rw [if_neg h]
  by_cases h0 : unpackExponent b = 0#_
  · rw [if_pos h0]
    by_cases hm : unpackMantissa b = 0#_
    · rw [dif_pos hm]
      trivial
    · rw [dif_neg hm]
      show _ < (972 : Int)
      rw [h0]
      decide
  · rw [if_neg h0]
    show _ < (972 : Int)
    simp only [Format.exponentBias]
    omega

/-- Bits with the greatest exponent hold no finite number. -/
theorem exponent_ne_of_isFinite (h : (UnpackedFloat.unpack Format.binary64 b).isFinite = true) :
    unpackExponent b ≠ -1#_ := by
  intro he
  delta UnpackedFloat.unpack at h
  dsimp only at h
  rw [if_pos he] at h
  split at h <;> cases h

theorem InRange.isFinite {f : UnpackedFloat} (h : InRange f) : f.isFinite = true := by
  cases f with
  | infinity => cases h
  | notANumber => cases h
  | zero s => rfl
  | finite s m e hm => rfl

/-- A number in range is packed as a finite double. -/
theorem isFinite_pack {f : UnpackedFloat} (h : InRange f) : (Float.Model.pack f).isFinite = true := by
  refine (inRange_unpack ?_).isFinite
  show unpackExponent (UnpackedFloat.pack Format.binary64 f) ≠ -1#_
  cases f with
  | infinity => cases h
  | notANumber => cases h
  | zero s =>
    show unpackExponent (packComponents Format.binary64 s 0 0) ≠ -1#_
    rw [unpackExponent_packComponents]
    decide
  | finite s m e hm =>
    have h : e < 972 := h
    delta UnpackedFloat.pack
    dsimp only
    rw [if_neg (by simp only [Format.exponentBias]; omega)]
    split
    · rw [unpackExponent_packComponents]
      intro hx
      have hx := congrArg BitVec.toNat hx
      rw [show (-1#11).toNat = 2047 from rfl, BitVec.toNat_ofNat] at hx
      simp only [Format.exponentBias] at hx
      omega
    · rw [unpackExponent_packComponents]
      decide

end Exponents

/-- A double with another sign is as finite. -/
theorem isFinite_neg {x : Float} (h : x.isFinite = true) : (-x).isFinite = true := by
  have hr := inRange_unpack (exponent_ne_of_isFinite h)
  refine isFinite_pack ?_
  show InRange (UnpackedFloat.neg (UnpackedFloat.unpack Format.binary64 x.toModel.toBits.toBitVec))
  cases hu : UnpackedFloat.unpack Format.binary64 x.toModel.toBits.toBitVec with
  | infinity => rw [hu] at hr; cases hr
  | notANumber => rw [hu] at hr; cases hr
  | zero s => trivial
  | finite s m e hm => rw [hu] at hr; exact hr

/-- Bits below those of infinity are those of a finite double. -/
theorem isFinite_ofBits {bits : Nat} (h : bits < infinityBits) :
    (Float.ofBits (UInt64.ofNat bits)).isFinite = true := by
  refine isFinite_pack (inRange_unpack fun he => ?_)
  have he := congrArg BitVec.toNat he
  rw [show (-1#11).toNat = 2047 from rfl] at he
  simp only [unpackExponent, BitVec.toNat_cast, BitVec.extractLsb_toNat, Nat.shiftRight_eq_div_pow] at he
  have hb : (UInt64.ofNat bits).toBitVec.toNat = bits := by
    simp only [infinityBits] at h
    rw [UInt64.toNat_toBitVec, UInt64.toNat_ofNat']
    omega
  rw [hb] at he
  simp only [infinityBits] at h
  omega

/-! ## The bits of a word -/

/-- A quotient is rounded up by less than one. -/
theorem roundQuotient_le (num den : Nat) : roundQuotient num den ≤ num / den + 1 := by
  simp only [roundQuotient]
  split <;> omega

/-- The leading bit of a positive natural number. -/
theorem floorLog_one {n : Nat} (hn : n ≠ 0) : floorLog n 1 = n.log2 := by
  simp only [floorLog, powFraction, show Nat.log2 1 = 0 from rfl, Int.natCast_zero, Int.sub_zero, Int.toNat_natCast,
    Int.toNat_neg_natCast, Nat.pow_eq, Nat.pow_zero, Nat.mul_one, Nat.one_mul]
  exact if_neg (Nat.not_lt.2 (Nat.log2_self_le hn))

/-- A number has at most 53 bits before the point once its leading bit is moved there. -/
theorem scaled_lt (n : Nat) :
    n * Nat.pow 2 (52 - n.log2) / Nat.pow 2 (n.log2 - 52) < Nat.pow 2 53 := by
  have hlt : n < Nat.pow 2 (n.log2 + 1) := Nat.lt_log2_self
  have heq : Nat.pow 2 (n.log2 + 1) * Nat.pow 2 (52 - n.log2) = Nat.pow 2 (n.log2 - 52) * Nat.pow 2 53 := by
    simp only [Nat.pow_eq, ← Nat.pow_add]
    congr 1
    omega
  refine Nat.div_lt_of_lt_mul ?_
  calc n * Nat.pow 2 (52 - n.log2)
      < Nat.pow 2 (n.log2 + 1) * Nat.pow 2 (52 - n.log2) :=
        Nat.mul_lt_mul_of_pos_right hlt (Nat.pow_pos (by decide))
    _ = Nat.pow 2 (n.log2 - 52) * Nat.pow 2 53 := heq

/-- The bits of the double nearest to a word are below those of infinity. -/
theorem nearestBits_lt {n : Nat} (h : n ≤ Word.bound64) : nearestBits n 1 < infinityBits := by
  unfold nearestBits
  by_cases hn : n = 0
  · simp [hn, infinityBits]
  have hlog : n.log2 < 65 := (Nat.log2_lt hn).2 (Nat.lt_of_le_of_lt h (by decide))
  have hexp : max (floorLog n 1 - 52) (-1074) = (n.log2 : Int) - 52 := by rw [floorLog_one hn]; omega
  have hp : powFraction 2 ((n.log2 : Int) - 52) = (Nat.pow 2 (n.log2 - 52), Nat.pow 2 (52 - n.log2)) := by
    simp only [powFraction]
    congr 2 <;> omega
  simp only [hn, decide_false, Bool.false_or, show decide (1 = 0) = false from rfl, Bool.false_eq_true, if_false, hexp,
    hp, Nat.one_mul]
  have hsig := roundQuotient_le (n * Nat.pow 2 (52 - n.log2)) (Nat.pow 2 (n.log2 - 52))
  have hlt := scaled_lt n
  rw [show Nat.pow 2 53 = 0x20000000000000 from rfl] at hlt
  generalize roundQuotient (n * Nat.pow 2 (52 - n.log2)) (Nat.pow 2 (n.log2 - 52)) = sig at hsig ⊢
  simp only [infinityBits, hiddenBit] at hsig ⊢
  omega

/-- **Words are finite doubles.** -/
theorem isFinite_ofInt {n : Int} (h : n.natAbs ≤ Word.bound64) : (ofInt n).isFinite = true := by
  have hf : (nearest n.natAbs 1).isFinite = true := isFinite_ofBits (nearestBits_lt h)
  unfold ofInt
  split
  · exact isFinite_neg hf
  · exact hf

end SolverClient.Decimal
