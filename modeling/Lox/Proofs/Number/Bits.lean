import Lox.Decimal.Binary64
import Mathlib

/-!
# Lox.Proofs.Number.Bits

The bits of a finite number are its sign bit and its ordinal. The number comes back from the two
(`ofOrdinal_ordinal`): from the positive number with that ordinal, negated if the sign bit is set.
-/

namespace Lox
namespace Binary64

open Float.Model (Format)
open Float.Model.UnpackedFloat

/-! ## Sign, exponent and mantissa -/

section Components

variable {s : Sign} {e : BitVec 11} {m : BitVec 52} {x : Float}

/-- The bits that sign, exponent and mantissa make up. -/
def components (s : Sign) (e : BitVec 11) (m : BitVec 52) : BitVec 64 :=
  packComponents Format.binary64 s e m

theorem exists_components (b : BitVec 64) : ∃ s e m, b = components s e m :=
  ⟨_, _, _,
    (@packComponents_unpackSign_unpackExponent_unpackMantissa Format.binary64 b).symm⟩

theorem toNat_components :
    (components s e m).toNat =
      s.toBitVec.toNat * signWeight + (e.toNat * normalStart + m.toNat) := by
  show ((s.toBitVec ++ e) ++ m).toNat = _
  rw [BitVec.toNat_append, BitVec.toNat_append, ← Nat.shiftLeft_add_eq_or_of_lt m.isLt,
    ← Nat.shiftLeft_add_eq_or_of_lt e.isLt]
  simp only [Nat.shiftLeft_eq, signWeight, normalStart]
  omega

/-- An exponent of ones is that of an infinity or of what is not a number. -/
theorem ne_of_isFinite (hx : x.isFinite = true) (hb : x.toBits.toBitVec = components s e m) :
    e ≠ -1#11 := by
  rintro rfl
  have hunpack : (unpack Format.binary64 (components s (-1#11) m)).isFinite = true := by
    rw [← hb]
    exact hx
  simp only [unpack, components, unpackExponent_packComponents, unpackMantissa_packComponents,
    unpackSign_packComponents, if_true] at hunpack
  by_cases hm : m = 0#52
  · rw [if_pos hm] at hunpack
    cases hunpack
  · rw [if_neg hm] at hunpack
    cases hunpack

theorem pack_unpack_components (he : e ≠ -1#11) :
    pack Format.binary64 (unpack Format.binary64 (components s e m)) = components s e m := by
  have hnan : @isNaNBits Format.binary64 (components s e m) = false := by
    simp only [isNaNBits, components, unpackExponent_packComponents, he, false_and, decide_false]
  rw [pack_unpack, hnan]
  rfl

theorem neg_unpack_components (he : e ≠ -1#11) :
    (unpack Format.binary64 (components s e m)).neg =
      unpack Format.binary64 (components (-s) e m) := by
  simp only [unpack, components, unpackExponent_packComponents, unpackMantissa_packComponents,
    unpackSign_packComponents, Sign.ofBitVec_toBitVec, if_neg he]
  split
  · split <;> rfl
  · rfl

end Components

/-! ## The number with these bits -/

theorem toBits_ofBits {s : Sign} {e : BitVec 11} {m : BitVec 52} {b : UInt64} (he : e ≠ -1#11)
    (hb : b.toBitVec = components s e m) : (Float.ofBits b).toBits = b := by
  rw [← UInt64.toBitVec_inj]
  show pack Format.binary64 (unpack Format.binary64 b.toBitVec) = b.toBitVec
  rw [hb, pack_unpack_components he]

theorem toBits_neg {x : Float} {s : Sign} {e : BitVec 11} {m : BitVec 52} (he : e ≠ -1#11)
    (hb : x.toBits.toBitVec = components s e m) :
    (-x).toBits.toBitVec = components (-s) e m := by
  show pack Format.binary64 (unpack Format.binary64 x.toBits.toBitVec).neg = _
  rw [hb, neg_unpack_components he, pack_unpack_components he]

theorem ordinal_of_components {x : Float} {s : Sign} {e : BitVec 11} {m : BitVec 52}
    (hb : x.toBits.toBitVec = components s e m) :
    ordinal x = e.toNat * normalStart + m.toNat := by
  have hbits : x.toBits.toNat = (components s e m).toNat := congrArg BitVec.toNat hb
  have he := e.isLt
  have hm := m.isLt
  rw [ordinal, hbits, toNat_components, Nat.mul_add_mod_self_right]
  refine Nat.mod_eq_of_lt ?_
  simp only [normalStart, signWeight]
  omega

theorem signBit_of_components {x : Float} {s : Sign} {e : BitVec 11} {m : BitVec 52}
    (hb : x.toBits.toBitVec = components s e m) : signBit x = (s == .negative) := by
  have hbits : x.toBits.toNat = (components s e m).toNat := congrArg BitVec.toNat hb
  have he := e.isLt
  have hm := m.isLt
  rw [signBit, hbits, toNat_components]
  cases s with
  | positive =>
    have hzero : Sign.positive.toBitVec.toNat = 0 := rfl
    refine decide_eq_false ?_
    simp only [hzero, normalStart, signWeight]
    omega
  | negative => exact decide_eq_true (by simp [Sign.toBitVec])

theorem ordinal_lt_infinity {x : Float} (hx : x.isFinite = true) : ordinal x < infinity := by
  obtain ⟨s, e, m, hb⟩ := exists_components x.toBits.toBitVec
  have hones : (-1#11).toNat = 2047 := by decide
  have he : e.toNat ≠ 2047 := fun h =>
    ne_of_isFinite hx hb (BitVec.eq_of_toNat_eq (h.trans hones.symm))
  have hlt := e.isLt
  have hm := m.isLt
  rw [ordinal_of_components hb, infinity]
  simp only [normalStart]
  omega

/-- A finite number is what its sign bit and its ordinal say. -/
theorem ofOrdinal_ordinal {x : Float} (hx : x.isFinite = true) :
    (if signBit x then -ofOrdinal (ordinal x) else ofOrdinal (ordinal x)) = x := by
  obtain ⟨s, e, m, hb⟩ := exists_components x.toBits.toBitVec
  have he := ne_of_isFinite hx hb
  have hpositive : (UInt64.ofNat (ordinal x)).toBitVec = components .positive e m := by
    refine BitVec.eq_of_toNat_eq ?_
    rw [toNat_components, ← ordinal_of_components hb]
    have hlt := ordinal_lt_infinity hx
    simp only [infinity, normalStart] at hlt
    simp [Sign.toBitVec]
    omega
  have hofOrdinal : (ofOrdinal (ordinal x)).toBits.toBitVec = components .positive e m := by
    rw [ofOrdinal, toBits_ofBits he hpositive, hpositive]
  rw [← Float.toBits_inj, ← UInt64.toBitVec_inj, hb, signBit_of_components hb]
  cases s with
  | positive => exact hofOrdinal
  | negative =>
    rw [show (Sign.negative == .negative) = true from rfl, if_pos rfl, toBits_neg he hofOrdinal]
    rfl

end Binary64
end Lox
