import Lox.Number.Decimal
import Mathlib.Algebra.Order.Field.Rat
import Mathlib.Tactic.FieldSimp
import Mathlib.Tactic.Linarith
import Mathlib.Tactic.Positivity
import Mathlib.Tactic.Ring

/-! What a decimal is read as. The values of numbers lie in the order of their bits, and
reading rounds to the nearest of them: a decimal is read as a number past some other when
its value lies above the middle behind that other, or in the middle when that one is odd
(`Decimal.lt_bits_iff`). So a greater value is read as no smaller number
(`Decimal.bits_le_of_value_le`), the value of a number is read as that number
(`Decimal.bits_of_value`), and so is its shortest decimal (`Decimal.bits_shortest`). -/

namespace Lox
namespace Binary64

/-! ## Rounding a quotient -/

/-- A quotient is rounded past a whole number when it lies above the half behind it, or on
that half and the whole number is odd. -/
theorem lt_roundDiv_iff {n num den : Nat} (hd : 0 < den) : n < roundDiv num den ↔
    (2 * n + 1) * den < 2 * num ∨ (2 * n + 1) * den = 2 * num ∧ n % 2 = 1 := by
  have hnum := Nat.div_add_mod num den
  have hrest := Nat.mod_lt num hd
  have hodd : (2 * n + 1) * den = 2 * (den * n) + den := by ring
  simp only [roundDiv, hodd]
  generalize num / den = whole at *
  generalize num % den = rest at *
  rcases Nat.lt_trichotomy n whole with hlt | rfl | hgt
  · have hstep : den * n + den ≤ den * whole := Nat.mul_le_mul_left den hlt
    grind
  · grind
  · have hstep : den * whole + den ≤ den * n := Nat.mul_le_mul_left den hgt
    grind

theorem roundDiv_le {n num den : Nat} (hd : 0 < den) (h : num ≤ n * den) :
    roundDiv num den ≤ n := by
  have hodd : (2 * n + 1) * den = 2 * (n * den) + den := by ring
  rw [← Nat.not_lt, lt_roundDiv_iff hd]
  omega

theorem le_roundDiv {n num den : Nat} (hd : 0 < den) (h : n * den ≤ num) :
    n ≤ roundDiv num den := by
  cases n with
  | zero => exact Nat.zero_le _
  | succ n =>
    have hodd : (2 * n + 1) * den + den = 2 * ((n + 1) * den) := by ring
    exact (lt_roundDiv_iff hd).mpr (.inl (by omega))

/-! ## Bits in order -/

theorem scale_add_significand (bits : Nat) : scale bits * 2 ^ 52 + significand bits = bits := by
  show scale bits * 2 ^ 52 + (bits - scale bits * 2 ^ 52) = bits
  have hscale : scale bits = bits / 2 ^ 52 - 1 := rfl
  omega

theorem significand_lt (bits : Nat) : significand bits < 2 ^ 53 := by
  have hscale : scale bits = bits / 2 ^ 52 - 1 := rfl
  have hbits := scale_add_significand bits
  omega

theorem le_significand {bits : Nat} (h : 0 < scale bits) : 2 ^ 52 ≤ significand bits := by
  have hscale : scale bits = bits / 2 ^ 52 - 1 := rfl
  have hbits := scale_add_significand bits
  omega

theorem units_eq (bits : Nat) : units bits = significand bits * 2 ^ scale bits := rfl

/-- The significand that overflows carries into the scale. -/
theorem units_succ (bits : Nat) : units (bits + 1) = (significand bits + 1) * 2 ^ scale bits := by
  have hscale : scale bits = bits / 2 ^ 52 - 1 := rfl
  have hscale' : scale (bits + 1) = (bits + 1) / 2 ^ 52 - 1 := rfl
  have hbits := scale_add_significand bits
  have hbits' := scale_add_significand (bits + 1)
  have hlt := significand_lt bits
  rw [units_eq]
  by_cases hs : scale (bits + 1) = scale bits
  · rw [hs] at hbits' ⊢
    have hm : significand (bits + 1) = significand bits + 1 := by omega
    rw [hm]
  · have hs' : scale (bits + 1) = scale bits + 1 := by omega
    have hm : significand bits + 1 = 2 ^ 52 * 2 := by omega
    have hm' : significand (bits + 1) = 2 ^ 52 := by omega
    rw [hs', hm, hm', Nat.pow_succ']
    ring

/-! ## Rounding to bits -/

theorem lt_two_pow_scaleFor (units : Nat) : units < 2 ^ (scaleFor units + 53) := by
  have hlog : units.log2 + 1 ≤ scaleFor units + 53 := by
    have hscale : scaleFor units = units.log2 - 52 := rfl
    omega
  exact Nat.lt_of_lt_of_le Nat.lt_log2_self (Nat.pow_le_pow_right (by decide) hlog)

theorem two_pow_scaleFor_le {units : Nat} (h : 0 < scaleFor units) :
    2 ^ (scaleFor units + 52) ≤ units := by
  have hscale : scaleFor units = units.log2 - 52 := rfl
  have hlog : scaleFor units + 52 = units.log2 := by omega
  have hne : units ≠ 0 := by
    rintro rfl
    exact absurd h (by decide)
  rw [hlog]
  exact Nat.log2_self_le hne

/-- A greater scale is at least twice as wide. -/
theorem two_mul_scaled_le {s t : Nat} (h : s < t) (den : Nat) :
    2 * (2 ^ s * den) ≤ 2 ^ t * den := by
  rw [← Nat.mul_assoc, ← Nat.pow_succ']
  exact Nat.mul_le_mul_right den (Nat.pow_le_pow_right (by decide) h)

theorem one_pos : 0 < one := by decide +kernel

/-- A fraction is rounded past some bits when it lies above the middle between them and the
next, or in the middle and these are odd. -/
theorem lt_nearest_iff {bits num den : Nat} (hbits : bits < infinity) (hd : 0 < den) :
    bits < nearest num den ↔
      (2 * significand bits + 1) * 2 ^ scale bits * den < 2 * (num * one) ∨
      (2 * significand bits + 1) * 2 ^ scale bits * den = 2 * (num * one) ∧ bits % 2 = 1 := by
  have hparts := scale_add_significand bits
  have hlt := significand_lt bits
  have hle := @le_significand bits
  simp only [nearest, Nat.pow_eq, Nat.lt_min, and_iff_left hbits]
  clear hbits
  generalize num * one = num
  have hbelow := lt_two_pow_scaleFor (num / den)
  have habove := @two_pow_scaleFor_le (num / den)
  rw [Nat.div_lt_iff_lt_mul hd] at hbelow
  rw [Nat.le_div_iff_mul_le hd] at habove
  generalize scaleFor (num / den) = s at *
  generalize scale bits = t at *
  generalize significand bits = m at *
  have hden : 0 < den * 2 ^ s := Nat.mul_pos hd (Nat.two_pow_pos s)
  rw [Nat.pow_add, Nat.mul_right_comm] at hbelow habove
  rcases Nat.lt_trichotomy s t with hst | rfl | hst
  · -- no fraction of the smaller scale comes up to these bits
    have hrounded : roundDiv num (den * 2 ^ s) ≤ 2 ^ 53 :=
      roundDiv_le hden (by rw [Nat.mul_comm den, Nat.mul_comm (2 ^ 53)]; omega)
    have hscales := two_mul_scaled_le hst den
    have hmiddle : (2 ^ 53 + 1) * (2 ^ t * den) ≤ (2 * m + 1) * 2 ^ t * den := by
      rw [Nat.mul_assoc]
      exact Nat.mul_le_mul_right _ (by omega)
    omega
  · have hassoc : (2 * m + 1) * (den * 2 ^ s) = (2 * m + 1) * 2 ^ s * den := by ring
    have hparity : bits % 2 = m % 2 := by omega
    rw [hparity, ← hassoc, ← lt_roundDiv_iff hden]
    omega
  · -- each fraction of the greater scale lies above them
    have hrounded : 2 ^ 52 ≤ roundDiv num (den * 2 ^ s) :=
      le_roundDiv hden (by rw [Nat.mul_comm den, Nat.mul_comm (2 ^ 52)]; omega)
    have hscales := two_mul_scaled_le hst den
    have hmiddle : (2 * m + 1) * 2 ^ t * den ≤ (2 ^ 54 - 1) * (2 ^ t * den) := by
      rw [Nat.mul_assoc]
      exact Nat.mul_le_mul_right _ (by omega)
    have hpos : 0 < 2 ^ t * den := Nat.mul_pos (Nat.two_pow_pos t) hd
    omega

/-! ## Values -/

/-- The value of the number with these bits. -/
def value (bits : Nat) : Rat :=
  units bits / one

/-- The middle between the value of a number and the next. -/
def middle (bits : Nat) : Rat :=
  (value bits + value (bits + 1)) / 2

theorem middle_eq (bits : Nat) :
    middle bits = ((2 * significand bits + 1) * 2 ^ scale bits : Nat) / (2 * one : Nat) := by
  simp only [middle, value, units_succ, units_eq]
  push_cast
  ring

theorem value_lt_succ (bits : Nat) : value bits < value (bits + 1) := by
  have hone : (0 : Rat) < one := Nat.cast_pos.mpr one_pos
  have hunits : units bits < units (bits + 1) := by
    rw [units_succ, units_eq]
    exact Nat.mul_lt_mul_of_pos_right (Nat.lt_succ_self _) (Nat.two_pow_pos _)
  exact div_lt_div_of_pos_right (Nat.cast_lt.mpr hunits) hone

theorem value_lt_middle (bits : Nat) : value bits < middle bits := by
  have h := value_lt_succ bits
  rw [middle]
  linarith

theorem middle_lt_value (bits : Nat) : middle bits < value (bits + 1) := by
  have h := value_lt_succ bits
  rw [middle]
  linarith

end Binary64

namespace Decimal
open Binary64

/-- The value of a decimal. -/
def value (d : Decimal) : Rat :=
  d.digits * 10 ^ d.exponent

theorem value_eq_div (d : Decimal) : d.value = (d.numerator : Rat) / d.denominator := by
  obtain ⟨digits, exponent⟩ := d
  simp only [value, numerator, denominator, Nat.pow_eq]
  obtain ⟨n, rfl | rfl⟩ := exponent.eq_nat_or_neg
  · simp
  · simp [div_eq_mul_inv]

/-- Reading rounds to the nearest number: a decimal is read as a number past some other when
its value lies above the middle behind that other, or in the middle when that one is odd. -/
theorem lt_bits_iff {d : Decimal} {bits : Nat} (h : bits < infinity) :
    bits < d.bits ↔ middle bits < d.value ∨ middle bits = d.value ∧ bits % 2 = 1 := by
  have hden : (0 : Rat) < d.denominator := Nat.cast_pos.mpr d.denominator_pos
  have hone := one_pos
  rw [Decimal.bits, lt_nearest_iff h d.denominator_pos, middle_eq, value_eq_div]
  generalize one = one at *
  have htwo : (0 : Rat) < (2 * one : Nat) := Nat.cast_pos.mpr (Nat.mul_pos (by decide) hone)
  rw [div_lt_div_iff₀ htwo hden, div_eq_div_iff htwo.ne' hden.ne']
  have hswap : d.numerator * (2 * one) = 2 * (d.numerator * one) := by ring
  rw [← hswap]
  norm_cast

/-- A greater value is read as no smaller number. -/
theorem bits_le_of_value_le {c d : Decimal} (h : c.value ≤ d.value) : c.bits ≤ d.bits := by
  by_contra hlt
  rw [Nat.not_le] at hlt
  have hinf : d.bits < infinity := Nat.lt_of_lt_of_le hlt (nearest_le_infinity _ _)
  refine Nat.lt_irrefl d.bits ((lt_bits_iff hinf).mpr ?_)
  rcases (lt_bits_iff hinf).mp hlt with hc | ⟨hc, hodd⟩
  · exact .inl (hc.trans_le h)
  · rcases (hc.trans_le h).lt_or_eq with hd | hd
    · exact .inl hd
    · exact .inr ⟨hd, hodd⟩

theorem bits_eq_of_value_eq {c d : Decimal} (h : c.value = d.value) : c.bits = d.bits :=
  Nat.le_antisymm (bits_le_of_value_le h.le) (bits_le_of_value_le h.ge)

/-- The value of a number is read as that number. -/
theorem bits_of_value {d : Decimal} {bits : Nat} (hbits : bits ≤ infinity)
    (h : d.value = Binary64.value bits) : d.bits = bits := by
  refine Nat.le_antisymm ?_ ?_
  · rcases hbits.lt_or_eq with hlt | rfl
    · rw [← Nat.not_lt, lt_bits_iff hlt, h]
      have hmiddle := value_lt_middle bits
      rintro (hgt | ⟨heq, -⟩)
      · exact lt_asymm hmiddle hgt
      · exact hmiddle.ne heq.symm
    · exact nearest_le_infinity _ _
  · cases bits with
    | zero => exact Nat.zero_le _
    | succ bits => exact (lt_bits_iff hbits).mpr (.inl (h ▸ middle_lt_value bits))

/-- A fraction of a power of two is written out in full with as many places. -/
theorem mul_five_pow_mul (units : Nat) {n : Nat} {k : Int} (h : k = -n) :
    ((units * Nat.pow 5 n : Nat) : Rat) * 10 ^ k = units / (Nat.pow 2 n : Nat) := by
  have hten : (10 : Rat) = 2 * 5 := by norm_num
  rw [h, Nat.pow_eq, Nat.pow_eq, zpow_neg, zpow_natCast, hten, mul_pow]
  push_cast
  field_simp

theorem value_exact (bits : Nat) : (exact bits).value = Binary64.value bits := by
  have hplaces : (-1074 : Int) = -(1074 : Nat) := rfl
  unfold Decimal.value exact Binary64.value one
  generalize (-1074 : Int) = exponent, 1074 = places at *
  exact mul_five_pow_mul (units bits) hplaces

theorem value_trim (d : Decimal) : d.trim.value = d.value := by
  fun_induction trim d with
  | case1 d h ih =>
    have hdigits : (d.digits : Rat) = (d.digits / 10 : Nat) * 10 := by
      exact_mod_cast (Nat.div_mul_cancel (Nat.dvd_of_mod_eq_zero h.2)).symm
    rw [ih, value, value, hdigits, zpow_add_one₀ (by norm_num : (10 : Rat) ≠ 0)]
    ring
  | case2 d h => rfl

theorem bits_trim (d : Decimal) : d.trim.bits = d.bits :=
  bits_eq_of_value_eq d.value_trim

/-- The shortest decimal of a number is read as that number. -/
theorem bits_shortest {bits : Nat} (h : bits ≤ infinity) : (shortest bits).bits = bits := by
  rw [shortest, bits_trim]
  cases hfound : (List.range 17).findSome? fun n : Nat =>
      onGrid? bits (leadingExponent (units bits) - n) with
  | none => exact bits_of_value h (value_exact bits)
  | some d =>
    obtain ⟨n, -, hgrid⟩ := List.exists_of_findSome?_eq_some hfound
    exact bits_of_onGrid? hgrid

end Decimal
end Lox
