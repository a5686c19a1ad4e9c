import Lox.Number.Decimal
import Mathlib

/-! Numbers and their bits. What a number is shows in its magnitude, the bits without the
sign; numbers with the same magnitude and sign are one (`Binary64.toBits_eq_of_parts`). A
number is the float of its bits, it is equal to no other but that the two zeros are equal
(`Binary64.eq_or_zero_of_beq`), and minus puts the sign before the bits of a number that has
none (`Binary64.toNat_toBits_neg`). -/

namespace Lox
namespace Binary64
open Float.Model UnpackedFloat

/-! ## The parts of 64 bits -/

theorem toNat_unpackMantissa (b : BitVec 64) :
    (@unpackMantissa .binary64 b).toNat = b.toNat % 2 ^ 52 := by
  simp [unpackMantissa, BitVec.extractLsb_toNat]

theorem toNat_unpackExponent (b : BitVec 64) :
    (@unpackExponent .binary64 b).toNat = b.toNat / 2 ^ 52 % 2 ^ 11 := by
  simp [unpackExponent, BitVec.extractLsb_toNat, Nat.shiftRight_eq_div_pow]

theorem toNat_packComponents (s : Sign) (e : BitVec 11) (m : BitVec 52) :
    (packComponents .binary64 s e m).toNat =
      s.toBitVec.toNat * 2 ^ 63 + e.toNat * 2 ^ 52 + m.toNat := by
  rw [packComponents, BitVec.toNat_append, BitVec.toNat_append,
    ← Nat.shiftLeft_add_eq_or_of_lt m.isLt, ← Nat.shiftLeft_add_eq_or_of_lt e.isLt,
    Nat.shiftLeft_eq, Nat.shiftLeft_eq]
  omega

/-- The bits of a number but for its sign. -/
def magnitude (x : Float) : Nat :=
  x.toBits.toNat % signPlace

/-- The sign is set. It is of -0. -/
def Negative (x : Float) : Prop :=
  signPlace ≤ x.toBits.toNat

instance (x : Float) : Decidable (Negative x) :=
  inferInstanceAs (Decidable (_ ≤ _))

theorem signPlace_eq : signPlace = 2 ^ 63 := rfl

theorem infinity_eq : infinity = 2047 * 2 ^ 52 := rfl

theorem toBits_eq_of_parts {x y : Float} (hm : magnitude x = magnitude y)
    (hn : Negative x ↔ Negative y) : x.toBits = y.toBits := by
  have hx := x.toBits.toBitVec.isLt
  have hy := y.toBits.toBitVec.isLt
  refine UInt64.toNat_inj.mp ?_
  simp only [magnitude, Negative, signPlace_eq] at hm hn
  simp only [UInt64.toNat_toBitVec] at hx hy
  omega

/-! ## Kinds of numbers -/

theorem isNaNBits_iff (b : BitVec 64) :
    @isNaNBits .binary64 b = true ↔ infinity < b.toNat % signPlace := by
  have hb : b.toNat < 2 ^ 64 := b.isLt
  have hones : (-1#11).toNat = 2047 := rfl
  have hzero : (0#52).toNat = 0 := rfl
  rw [isNaNBits, decide_eq_true_eq, ne_eq, ← BitVec.toNat_inj, ← BitVec.toNat_inj,
    toNat_unpackExponent, toNat_unpackMantissa, signPlace_eq, infinity_eq]
  simp only [hones, hzero]
  omega

theorem isNaN_iff {x : Float} : x.isNaN = true ↔ infinity < magnitude x := by
  have hvalid := x.toModel.valid
  have hnan : x.isNaN = true ↔ x.toBits.toBitVec = packedNaN .binary64 :=
    isNaN_unpack_iff_of_valid hvalid
  have hx : @isNaNBits .binary64 x.toBits.toBitVec = true ↔ infinity < magnitude x :=
    isNaNBits_iff _
  rw [hnan, ← hx]
  refine ⟨fun h => h ▸ isNaNBits_packedNaN, fun h => ?_⟩
  obtain ⟨he, hm⟩ := of_decide_eq_true h
  exact hvalid.eq_packedNaN he hm

theorem isFinite_iff {x : Float} : x.isFinite = true ↔ magnitude x < infinity := by
  have hx : @unpackExponent .binary64 x.toBits.toBitVec ≠ -1#11 ↔ magnitude x < infinity := by
    have hb : x.toBits.toBitVec.toNat < 2 ^ 64 := x.toBits.toBitVec.isLt
    have hones : (-1#11).toNat = 2047 := rfl
    have hmag : magnitude x = x.toBits.toBitVec.toNat % 2 ^ 63 := rfl
    rw [ne_eq, ← BitVec.toNat_inj, toNat_unpackExponent, hones, hmag, infinity_eq]
    omega
  rw [← hx]
  show (UnpackedFloat.unpack .binary64 x.toBits.toBitVec).isFinite = true ↔ _
  unfold UnpackedFloat.unpack
  dsimp only
  split
  · split <;> simp_all [UnpackedFloat.isFinite]
  · split
    · split <;> simp_all [UnpackedFloat.isFinite]
    · simp_all [UnpackedFloat.isFinite]

theorem isInf_iff {x : Float} : x.isInf = true ↔ magnitude x = infinity := by
  have hx : x.isInf = true ↔ ¬ x.isNaN = true ∧ ¬ x.isFinite = true := by
    show x.toModel.unpack.isInf = true ↔
      ¬ x.toModel.unpack.isNaN = true ∧ ¬ x.toModel.unpack.isFinite = true
    cases x.toModel.unpack <;>
      simp [UnpackedFloat.isInf, UnpackedFloat.isNaN, UnpackedFloat.isFinite]
  rw [hx, isNaN_iff, isFinite_iff, Nat.not_lt, Nat.not_lt]
  exact ⟨fun h => Nat.le_antisymm h.1 h.2, fun h => ⟨h.le, h.ge⟩⟩

theorem isNaN_eq_false_iff {x : Float} : x.isNaN = false ↔ magnitude x ≤ infinity := by
  rw [Bool.eq_false_iff, ne_eq, isNaN_iff, Nat.not_lt]

/-! ## Back to the bits -/

theorem pack_unpack_of_le {b : BitVec 64} (h : b.toNat % signPlace ≤ infinity) :
    UnpackedFloat.pack .binary64 (UnpackedFloat.unpack .binary64 b) = b := by
  rw [pack_unpack, if_neg]
  rwa [isNaNBits_iff, Nat.not_lt]

theorem toNat_toBits_ofBits {n : Nat} (hn : n < 2 ^ 64) (h : n % signPlace ≤ infinity) :
    (Float.ofBits (UInt64.ofNat n)).toBits.toNat = n := by
  have hbits : (UInt64.ofNat n).toBitVec.toNat = n := Nat.mod_eq_of_lt hn
  rw [← hbits] at h
  exact (congrArg BitVec.toNat (pack_unpack_of_le h)).trans hbits

/-! ## Equality -/

theorem beq_self {x : Float} (h : x.isNaN = false) : (x == x) = true := by
  rw [Float.isNaN_eq_decide_eq_nan, decide_eq_false_iff_not] at h
  exact Float.beq_self_iff.mpr h

/-- A number equals no other, but for the two zeros. -/
theorem eq_or_zero_of_beq {x y : Float} (h : (x == y) = true) :
    x = y ∨ magnitude x = 0 ∧ magnitude y = 0 := by
  have hzero : magnitude 0 = 0 := by decide +kernel
  have hminus : magnitude (-0) = 0 := by decide +kernel
  obtain ⟨-, -, heq | ⟨rfl, rfl⟩ | ⟨rfl, rfl⟩⟩ := Float.beq_iff_ne_nan_and_eq.mp h
  · exact .inl heq
  · exact .inr ⟨hzero, hminus⟩
  · exact .inr ⟨hminus, hzero⟩

/-! ## Negation -/

theorem pack_neg {u : UnpackedFloat} (h : u ≠ .notANumber) :
    ∃ s e m, UnpackedFloat.pack .binary64 u = packComponents .binary64 s e m ∧
      UnpackedFloat.pack .binary64 u.neg = packComponents .binary64 (-s) e m := by
  cases u with
  | notANumber => exact absurd rfl h
  | zero s | infinity s => exact ⟨s, _, _, rfl, rfl⟩
  | finite s m e hm =>
    simp only [UnpackedFloat.neg, UnpackedFloat.pack]
    split
    · exact ⟨s, _, _, rfl, rfl⟩
    · split
      · exact ⟨s, _, _, rfl, rfl⟩
      · exact ⟨s, _, _, rfl, rfl⟩

/-- Minus puts the sign before a number that has none. -/
theorem toNat_toBits_neg {x : Float} (h : x.toBits.toNat ≤ infinity) :
    (-x).toBits.toNat = signPlace + x.toBits.toNat := by
  have hmag : x.toBits.toBitVec.toNat % signPlace ≤ infinity :=
    Nat.le_trans (Nat.mod_le _ _) h
  have hu : x.toModel.unpack ≠ .notANumber := by
    intro hu
    have hnan : x.isNaN = true := congrArg UnpackedFloat.isNaN hu
    exact absurd (isNaN_iff.mp hnan) (Nat.not_lt.mpr hmag)
  obtain ⟨s, e, m, hx, hneg⟩ := pack_neg hu
  have hbits : x.toBits.toNat = s.toBitVec.toNat * 2 ^ 63 + e.toNat * 2 ^ 52 + m.toNat := by
    rw [← toNat_packComponents, ← hx]
    exact congrArg BitVec.toNat (pack_unpack_of_le hmag).symm
  have hbits' : (-x).toBits.toNat =
      (-s).toBitVec.toNat * 2 ^ 63 + e.toNat * 2 ^ 52 + m.toNat := by
    rw [← toNat_packComponents, ← hneg]
    rfl
  have hs : s = .positive := by
    cases s with
    | positive => rfl
    | negative =>
      have hone : (Sign.negative).toBitVec.toNat = 1 := rfl
      rw [hbits, hone, infinity_eq] at h
      omega
  have hzero : (Sign.positive).toBitVec.toNat = 0 := rfl
  have hone : (-Sign.positive).toBitVec.toNat = 1 := rfl
  rw [hs, hzero] at hbits
  rw [hs, hone] at hbits'
  rw [hbits, hbits', signPlace_eq]
  omega

end Binary64

namespace Decimal
open Binary64

/-! ## Numbers that are read -/

theorem bits_le_infinity (d : Decimal) : d.bits ≤ infinity :=
  nearest_le_infinity _ _

theorem toNat_toBits_toFloat (d : Decimal) : d.toFloat.toBits.toNat = d.bits := by
  have h := d.bits_le_infinity
  exact toNat_toBits_ofBits (by rw [infinity_eq] at h; omega) (Nat.le_trans (Nat.mod_le _ _) h)

/-- A number that was read has no sign. -/
theorem magnitude_toFloat (d : Decimal) : magnitude d.toFloat = d.bits := by
  have h := d.bits_le_infinity
  rw [magnitude, toNat_toBits_toFloat, signPlace_eq]
  rw [infinity_eq] at h
  omega

theorem isNaN_toFloat (d : Decimal) : d.toFloat.isNaN = false := by
  rw [isNaN_eq_false_iff, magnitude_toFloat]
  exact d.bits_le_infinity

/-- Numbers that are read are equal only if they are the same: none is -0. -/
theorem eq_of_beq_toFloat {c d : Decimal} (h : (c.toFloat == d.toFloat) = true) :
    c.toFloat = d.toFloat := by
  rcases eq_or_zero_of_beq h with heq | ⟨hc, hd⟩
  · exact heq
  · rw [magnitude_toFloat] at hc hd
    rw [toFloat, toFloat, hc, hd]

end Decimal
end Lox
