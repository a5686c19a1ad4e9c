import Lox.Number.Display
import Lox.Proofs.ReadBack

/-! The shortest decimal of a number is the shortest: of the decimals that are read as the
number it has the fewest digits, and of these it is the nearest (`Decimal.isShortest_iff`).
The search goes from coarse grids to fine ones and looks at the two decimals around the value
on each. A decimal of few digits does not lie between those two
(`Decimal.le_below_or_above_le`), so when it is read as the number, one of them is and is no
farther (`Decimal.exists_onGrid?`); with seventeen digits one of them always is
(`Decimal.exists_seventeen`). -/

namespace Lox
namespace Decimal
open Binary64

/-! ## The two decimals around a value -/

def gridNumerator (bits : Nat) (exponent : Int) : Nat :=
  units bits * Nat.pow 10 (-exponent).toNat

def gridDenominator (exponent : Int) : Nat :=
  one * Nat.pow 10 exponent.toNat

/-- The multiple of `10 ^ exponent` at the value of a number or next below it. -/
def below (bits : Nat) (exponent : Int) : Decimal :=
  ⟨gridNumerator bits exponent / gridDenominator exponent, exponent⟩

/-- The multiple of `10 ^ exponent` after that. -/
def above (bits : Nat) (exponent : Int) : Decimal :=
  ⟨gridNumerator bits exponent / gridDenominator exponent + 1, exponent⟩

theorem ten_zpow_pos (n : Int) : (0 : Rat) < 10 ^ n :=
  zpow_pos (by norm_num) n

theorem gridDenominator_pos (exponent : Int) : 0 < gridDenominator exponent := by
  have hone := one_pos
  unfold gridDenominator
  generalize one = one at *
  exact Nat.mul_pos hone (Nat.pow_pos (by decide))

theorem value_eq_grid (bits : Nat) (exponent : Int) : Binary64.value bits =
    (gridNumerator bits exponent : Rat) / gridDenominator exponent * 10 ^ exponent := by
  have hone := one_pos
  unfold Binary64.value gridNumerator gridDenominator
  generalize one = one at *
  simp only [Nat.pow_eq]
  obtain ⟨n, rfl | rfl⟩ := exponent.eq_nat_or_neg
  · simp
    field_simp
  · simp
    field_simp

theorem value_sub_below (bits : Nat) (exponent : Int) :
    Binary64.value bits - (below bits exponent).value =
      (gridNumerator bits exponent % gridDenominator exponent : Nat) /
        (gridDenominator exponent : Rat) * 10 ^ exponent := by
  have hden : (gridDenominator exponent : Rat) ≠ 0 :=
    Nat.cast_ne_zero.mpr (gridDenominator_pos exponent).ne'
  rw [value_eq_grid bits exponent, below, value]
  generalize gridNumerator bits exponent = num
  generalize gridDenominator exponent = den at *
  have hnum : (num : Rat) = den * (num / den : Nat) + (num % den : Nat) := by
    exact_mod_cast (Nat.div_add_mod num den).symm
  rw [← sub_mul, hnum, add_div, mul_div_cancel_left₀ _ hden, add_sub_cancel_left]

theorem value_above (bits : Nat) (exponent : Int) :
    (above bits exponent).value = (below bits exponent).value + 10 ^ exponent := by
  simp only [above, below, value]
  push_cast
  ring

theorem value_below_le (bits : Nat) (exponent : Int) :
    (below bits exponent).value ≤ Binary64.value bits := by
  have hten := ten_zpow_pos exponent
  rw [← sub_nonneg, value_sub_below]
  positivity

theorem lt_value_above (bits : Nat) (exponent : Int) :
    Binary64.value bits < (above bits exponent).value := by
  have hden := gridDenominator_pos exponent
  have hrest : (gridNumerator bits exponent % gridDenominator exponent : Nat) /
      (gridDenominator exponent : Rat) < 1 :=
    (div_lt_one (Nat.cast_pos.mpr hden)).mpr (Nat.cast_lt.mpr (Nat.mod_lt _ hden))
  rw [value_above, ← sub_lt_iff_lt_add', value_sub_below]
  exact mul_lt_of_lt_one_left (ten_zpow_pos exponent) hrest

/-- The search takes the upper one when it is as near. -/
theorem gridDenominator_le_iff (bits : Nat) (exponent : Int) :
    gridDenominator exponent ≤ 2 * (gridNumerator bits exponent % gridDenominator exponent) ↔
      (above bits exponent).value - Binary64.value bits ≤
        Binary64.value bits - (below bits exponent).value := by
  have hden := gridDenominator_pos exponent
  have hten := ten_zpow_pos exponent
  have hbelow := value_sub_below bits exponent
  have habove : (above bits exponent).value - Binary64.value bits =
      10 ^ exponent - (Binary64.value bits - (below bits exponent).value) := by
    rw [value_above]
    ring
  rw [habove, hbelow]
  generalize gridNumerator bits exponent % gridDenominator exponent = rest
  generalize gridDenominator exponent = den at *
  rw [sub_le_iff_le_add, ← add_mul, ← add_div, le_mul_iff_one_le_left hten,
    one_le_div (Nat.cast_pos.mpr hden), ← two_mul]
  norm_cast

/-! ## What the search takes -/

/-- `d` is as near to the value of a number as `c` or nearer, and not the lower one of two
equally near. -/
def NoFarther (bits : Nat) (d c : Decimal) : Prop :=
  |d.value - Binary64.value bits| ≤ |c.value - Binary64.value bits| ∧
    (|d.value - Binary64.value bits| = |c.value - Binary64.value bits| → c.value ≤ d.value)

section
variable {bits : Nat} {c d : Decimal}

/-- On one side of the value, what lies between is nearer. -/
theorem noFarther_of_between (h : c.value ≤ d.value ∧ d.value ≤ Binary64.value bits ∨
    Binary64.value bits ≤ d.value ∧ d.value ≤ c.value) : d.NoFarther bits c := by
  rcases h with ⟨hcd, hd⟩ | ⟨hd, hdc⟩
  · rw [NoFarther, abs_of_nonpos (sub_nonpos.mpr hd),
      abs_of_nonpos (sub_nonpos.mpr (hcd.trans hd))]
    exact ⟨by linarith, fun _ => hcd⟩
  · rw [NoFarther, abs_of_nonneg (sub_nonneg.mpr hd),
      abs_of_nonneg (sub_nonneg.mpr (hd.trans hdc))]
    exact ⟨by linarith, fun heq => by linarith⟩

theorem noFarther_of_upper (hc : c.value ≤ Binary64.value bits) (hd : Binary64.value bits ≤ d.value)
    (h : d.value - Binary64.value bits ≤ Binary64.value bits - c.value) : d.NoFarther bits c := by
  rw [NoFarther, abs_of_nonneg (sub_nonneg.mpr hd), abs_of_nonpos (sub_nonpos.mpr hc), neg_sub]
  exact ⟨h, fun _ => hc.trans hd⟩

theorem noFarther_of_lower (hd : d.value ≤ Binary64.value bits) (hc : Binary64.value bits ≤ c.value)
    (h : Binary64.value bits - d.value < c.value - Binary64.value bits) : d.NoFarther bits c := by
  rw [NoFarther, abs_of_nonpos (sub_nonpos.mpr hd), abs_of_nonneg (sub_nonneg.mpr hc), neg_sub]
  exact ⟨h.le, fun heq => absurd heq h.ne⟩

/-- What lies between a number and a decimal that is read as it is read as it too. -/
theorem bits_of_between (hbits : bits ≤ infinity) (hc : c.bits = bits)
    (h : c.value ≤ d.value ∧ d.value ≤ Binary64.value bits ∨
      Binary64.value bits ≤ d.value ∧ d.value ≤ c.value) : d.bits = bits := by
  have hexact : (exact bits).bits = bits := bits_of_value hbits (value_exact bits)
  rw [← value_exact] at h
  rcases h with ⟨hcd, hd⟩ | ⟨hd, hdc⟩
  · exact Nat.le_antisymm (hexact ▸ bits_le_of_value_le hd) (hc ▸ bits_le_of_value_le hcd)
  · exact Nat.le_antisymm (hc ▸ bits_le_of_value_le hdc) (hexact ▸ bits_le_of_value_le hd)

end

theorem onGrid?_eq (bits : Nat) (exponent : Int) : onGrid? bits exponent =
    if (below bits exponent).bits = bits then
      if (above bits exponent).bits = bits ∧
          (above bits exponent).value - Binary64.value bits ≤
            Binary64.value bits - (below bits exponent).value then
        some (above bits exponent)
      else some (below bits exponent)
    else if (above bits exponent).bits = bits then some (above bits exponent)
    else none := by
  simp only [← gridDenominator_le_iff]
  rfl

/-- When a decimal outside the two around the value is read as the number, so is one of
these, and what the search takes of them is no farther. -/
theorem exists_onGrid? {bits : Nat} {c : Decimal} {exponent : Int} (hbits : bits ≤ infinity)
    (hc : c.bits = bits)
    (hside : c.value ≤ (below bits exponent).value ∨ (above bits exponent).value ≤ c.value) :
    ∃ d, onGrid? bits exponent = some d ∧ d.NoFarther bits c := by
  have hbelow := value_below_le bits exponent
  have habove := (lt_value_above bits exponent).le
  rw [onGrid?_eq]
  rcases hside with hside | hside
  · rw [if_pos (bits_of_between hbits hc (.inl ⟨hside, hbelow⟩))]
    split
    · rename_i hupper
      refine ⟨_, rfl, noFarther_of_upper (hside.trans hbelow) habove (hupper.2.trans ?_)⟩
      exact sub_le_sub_left hside _
    · exact ⟨_, rfl, noFarther_of_between (.inl ⟨hside, hbelow⟩)⟩
  · have hupper : (above bits exponent).bits = bits :=
      bits_of_between hbits hc (.inr ⟨habove, hside⟩)
    have hnear := noFarther_of_between (.inr ⟨habove, hside⟩)
    split
    · split
      · exact ⟨_, rfl, hnear⟩
      · rename_i hlower
        have hfar := not_le.mp fun h => hlower ⟨hupper, h⟩
        refine ⟨_, rfl, noFarther_of_lower hbelow (habove.trans hside) (hfar.trans_le ?_)⟩
        exact sub_le_sub_right hside _
    · exact ⟨_, rfl, hnear⟩

/-! ## Digits -/

theorem value_le_of_digits_le {m n : Nat} (h : m ≤ n) (exponent : Int) :
    value ⟨m, exponent⟩ ≤ value ⟨n, exponent⟩ :=
  mul_le_mul_of_nonneg_right (Nat.cast_le.mpr h) (ten_zpow_pos exponent).le

/-- Zeros at the end of the digits count as places. -/
theorem value_mul_ten_pow (m n : Nat) (exponent : Int) :
    value ⟨m * 10 ^ n, exponent⟩ = value ⟨m, exponent + n⟩ := by
  rw [value, value, zpow_add₀ (by norm_num), zpow_natCast]
  push_cast
  ring

theorem value_ten_pow (n : Nat) (exponent : Int) :
    value ⟨10 ^ n, exponent⟩ = 10 ^ (exponent + n) := by
  rw [← Nat.one_mul (10 ^ n), value_mul_ten_pow, value, Nat.cast_one, one_mul]

/-- A decimal of few digits does not lie between the two around a value, on a grid that is
fine enough for these to have no fewer. -/
theorem le_below_or_above_le {c : Decimal} {bits n : Nat} {exponent : Int}
    (hc : c.digits < 10 ^ (n + 1)) (hlead : 10 ^ (exponent + n) ≤ Binary64.value bits) :
    c.value ≤ (below bits exponent).value ∨ (above bits exponent).value ≤ c.value := by
  rcases le_or_gt exponent c.exponent with hcoarse | hfine
  · obtain ⟨j, hj⟩ := Int.eq_ofNat_of_zero_le (sub_nonneg.mpr hcoarse)
    have hexponent : c.exponent = exponent + j := by omega
    have hvalue : c.value = value ⟨c.digits * 10 ^ j, exponent⟩ := by
      rw [value_mul_ten_pow, ← hexponent]
    rw [hvalue]
    exact (le_or_gt _ _).imp (value_le_of_digits_le · _) (value_le_of_digits_le · _)
  · left
    have hvalue : c.value ≤ value ⟨10 ^ n, exponent⟩ := by
      have hstep : exponent + n = (exponent - 1) + (n + 1 : Nat) := by omega
      rw [value_ten_pow, hstep, ← value_ten_pow]
      refine mul_le_mul (Nat.cast_le.mpr hc.le) ?_ (ten_zpow_pos _).le (Nat.cast_nonneg _)
      exact zpow_le_zpow_right₀ (by norm_num) (Int.le_sub_one_of_lt hfine)
    refine hvalue.trans (value_le_of_digits_le ?_ _)
    by_contra hlt
    have habove := value_le_of_digits_le (Nat.not_le.mp hlt) exponent
    rw [value_ten_pow] at habove
    exact absurd (lt_value_above bits exponent) (habove.trans hlead).not_gt

theorem length_digitChars_le_iff {d : Decimal} {n : Nat} :
    d.digitChars.length ≤ n + 1 ↔ d.digits < 10 ^ (n + 1) :=
  Nat.length_toDigits_le_iff (by decide) (Nat.succ_pos n)

theorem ten_pow_length_le {n : Nat} (h : 0 < n) : 10 ^ ((Nat.toDigits 10 n).length - 1) ≤ n := by
  cases hlength : (Nat.toDigits 10 n).length - 1 with
  | zero => exact h
  | succ k =>
    rw [← Nat.not_lt, ← Nat.length_toDigits_le_iff (by decide) (Nat.succ_pos k)]
    omega

/-! ## Zeros at the end -/

theorem digits_trim_le (d : Decimal) : d.trim.digits ≤ d.digits := by
  fun_induction trim d with
  | case1 d h ih => exact ih.trans (Nat.div_le_self _ _)
  | case2 d h => exact Nat.le_refl _

theorem digits_trim_mod_ne {d : Decimal} (h : 0 < d.digits) : d.trim.digits % 10 ≠ 0 := by
  fun_induction trim d with
  | case1 d hzero ih => exact ih (by dsimp only; omega)
  | case2 d hzero => exact fun hmod => hzero ⟨h, hmod⟩

theorem digits_trim_ten_pow (n : Nat) (exponent : Int) :
    (trim ⟨10 ^ n, exponent⟩).digits = 1 := by
  induction n generalizing exponent with
  | zero => simp [trim]
  | succ n ih =>
    rw [trim, if_pos ⟨Nat.pow_pos (by decide), Nat.pow_succ 10 n ▸ Nat.mul_mod_left _ _⟩]
    simpa [Nat.pow_succ] using ih (exponent + 1)

/-- Decimals without zeros at the end are the same when their values are. -/
theorem eq_of_value_eq {c d : Decimal} (hc : c.digits % 10 ≠ 0) (hd : d.digits % 10 ≠ 0)
    (h : c.value = d.value) : c = d := by
  wlog hle : c.exponent ≤ d.exponent
  · exact (this hd hc h.symm (Int.le_of_not_le hle)).symm
  obtain ⟨j, hj⟩ := Int.eq_ofNat_of_zero_le (sub_nonneg.mpr hle)
  obtain ⟨m, e⟩ := c
  obtain ⟨n, f⟩ := d
  obtain rfl : f = e + j := by dsimp only at hj; omega
  rw [← value_mul_ten_pow] at h
  have hdigits : m = n * 10 ^ j := Nat.cast_injective (mul_right_cancel₀ (ten_zpow_pos e).ne' h)
  cases j with
  | zero => simpa using hdigits
  | succ j =>
    refine absurd ?_ hc
    rw [hdigits, Nat.pow_succ, ← Nat.mul_assoc, Nat.mul_mod_left]

/-! ## Seventeen digits -/

theorem units_pos {bits : Nat} (h : 0 < bits) : 0 < units bits := by
  obtain ⟨b, rfl⟩ := Nat.exists_eq_add_one.mpr h
  rw [units_succ]
  exact Nat.mul_pos (Nat.succ_pos _) (Nat.two_pow_pos _)

/-- A difference of exponents is compared as a fraction. -/
theorem ten_zpow_sub_le_iff {num den : Nat} (hden : 0 < den) (m n : Nat) :
    (10 : Rat) ^ ((m : Int) - n) ≤ (num : Rat) / den ↔ 10 ^ m * den ≤ num * 10 ^ n := by
  rw [zpow_sub₀ (by norm_num), zpow_natCast, zpow_natCast,
    div_le_div_iff₀ (by positivity) (Nat.cast_pos.mpr hden)]
  norm_cast

/-- Counting the digits before the point, after a shift that brings some there, finds the
place of the leading one. -/
theorem length_shifted_spec {num den places : Nat} (hnum : 0 < num) (hden : 0 < den)
    (hshift : den ≤ Nat.pow 10 places) {length : Nat}
    (hlength : (Nat.toDigits 10 (num * Nat.pow 10 places / den)).length = length + 1) :
    (10 : Rat) ^ ((length : Int) - places) ≤ (num : Rat) / den ∧
      (num : Rat) / den < 10 ^ (((length + 1 : Nat) : Int) - places) := by
  rw [Nat.pow_eq] at hshift hlength
  have hpos : 0 < num * 10 ^ places / den :=
    Nat.div_pos (hshift.trans (Nat.le_mul_of_pos_left _ hnum)) hden
  have hlow := ten_pow_length_le hpos
  rw [hlength, Nat.add_sub_cancel, Nat.le_div_iff_mul_le hden] at hlow
  have hhigh := (Nat.length_toDigits_le_iff (by decide) (Nat.succ_pos length)).mp hlength.le
  rw [Nat.div_lt_iff_lt_mul hden] at hhigh
  rw [← not_le, ten_zpow_sub_le_iff hden, ten_zpow_sub_le_iff hden, Nat.not_le]
  exact ⟨hlow, hhigh⟩

/-- The leading exponent of a number is that of its value. -/
theorem leadingExponent_spec {bits : Nat} (h : 0 < bits) :
    10 ^ leadingExponent (units bits) ≤ Binary64.value bits ∧
      Binary64.value bits < 10 ^ (leadingExponent (units bits) + 1) := by
  have hone := one_pos
  have hshift : one ≤ Nat.pow 10 324 := by decide +kernel
  have hunits := units_pos h
  unfold leadingExponent Binary64.value
  generalize one = one at *
  generalize units bits = units at *
  obtain ⟨length, hlength⟩ := Nat.exists_eq_add_one.mpr (List.length_pos_of_ne_nil
    (Nat.toDigits_ne_nil (n := units * Nat.pow 10 324 / one) (b := 10)))
  have hleading : ((length + 1 : Nat) : Int) - 325 = (length : Int) - (324 : Nat) := by omega
  have hnext : (length : Int) - (324 : Nat) + 1 = ((length + 1 : Nat) : Int) - (324 : Nat) := by
    omega
  rw [hlength, hleading, hnext]
  exact length_shifted_spec hunits hone hshift hlength

theorem exists_of_bits {bits : Nat} {exponent : Int}
    (h : (below bits exponent).bits = bits ∨ (above bits exponent).bits = bits) :
    ∃ d, onGrid? bits exponent = some d := by
  rw [onGrid?_eq]
  split
  · split <;> exact ⟨_, rfl⟩
  · rename_i hbelow
    rw [if_pos (h.resolve_left hbelow)]
    exact ⟨_, rfl⟩

/-- Neighbours differ in seventeen digits. -/
theorem two_mul_units_lt (bits : Nat) :
    2 * units (bits + 1) + 10 ^ 16 * units bits < 10 ^ 16 * units (bits + 2) := by
  have hlt := Nat.mul_le_mul_right (2 ^ scale bits) (significand_lt bits)
  have hlt' := Nat.mul_lt_mul_of_pos_right (significand_lt (bits + 1))
    (Nat.two_pow_pos (scale (bits + 1)))
  have hunits := units_succ bits
  have hunits' : units (bits + 2) = _ := units_succ (bits + 1)
  rw [Nat.succ_mul, ← units_eq] at hunits hunits' hlt
  rw [← units_eq] at hlt'
  omega

theorem value_lt_middles (bits : Nat) :
    Binary64.value (bits + 1) < 10 ^ 16 * (middle (bits + 1) - middle bits) := by
  have hone := one_pos
  have hunits : (2 * units (bits + 1) + 10 ^ 16 * units bits : Rat) <
      10 ^ 16 * units (bits + 2) := by
    exact_mod_cast two_mul_units_lt bits
  unfold middle Binary64.value
  generalize one = one at *
  have hquotient := div_lt_div_of_pos_right hunits (Nat.cast_pos.mpr hone)
  rw [add_div, mul_div_assoc, mul_div_assoc, mul_div_assoc] at hquotient
  linarith

/-- No number needs more than seventeen digits: the middles around it are too far apart. -/
theorem exists_seventeen {bits : Nat} (hpos : 0 < bits) (h : bits < infinity) :
    ∃ d, onGrid? bits (leadingExponent (units bits) - 16) = some d := by
  obtain ⟨hlead, -⟩ := leadingExponent_spec hpos
  generalize leadingExponent (units bits) = lead at *
  obtain ⟨b, rfl⟩ := Nat.exists_eq_add_one.mpr hpos
  have hb : b < infinity := Nat.lt_of_succ_lt h
  have hwidth : (10 : Rat) ^ (lead - 16) < middle (b + 1) - middle b := by
    have hmiddles := hlead.trans_lt (value_lt_middles b)
    have hplaces : lead = (lead - 16) + (16 : Nat) := by omega
    rw [hplaces, zpow_add₀ (by norm_num), zpow_natCast, mul_comm] at hmiddles
    exact lt_of_mul_lt_mul_left hmiddles (by positivity)
  have hbelow := value_below_le (b + 1) (lead - 16)
  have habove := lt_value_above (b + 1) (lead - 16)
  have hexact : (exact (b + 1)).bits = b + 1 := bits_of_value h.le (value_exact _)
  refine exists_of_bits ?_
  rcases lt_or_ge (middle b) (below (b + 1) (lead - 16)).value with hnear | hfar
  · left
    refine Nat.le_antisymm ?_ ((lt_bits_iff hb).mpr (.inl hnear))
    rw [← value_exact] at hbelow
    exact (bits_le_of_value_le hbelow).trans_eq hexact
  · right
    have hnear : (above (b + 1) (lead - 16)).value < middle (b + 1) := by
      rw [value_above]
      linarith
    refine Nat.le_antisymm ?_ ((lt_bits_iff hb).mpr (.inl ((middle_lt_value b).trans habove)))
    rw [← Nat.not_lt, lt_bits_iff h]
    rintro (hgt | ⟨heq, -⟩)
    · exact lt_asymm hgt hnear
    · exact hnear.ne heq.symm

theorem eq_below_or_above {bits : Nat} {exponent : Int} {d : Decimal}
    (h : onGrid? bits exponent = some d) : d = below bits exponent ∨ d = above bits exponent := by
  rw [onGrid?_eq] at h
  split at h
  · split at h
    · exact .inr (Option.some.inj h).symm
    · exact .inl (Option.some.inj h).symm
  · split at h
    · exact .inr (Option.some.inj h).symm
    · cases h

/-- What is taken of a grid has no more digits than the grid has places. -/
theorem length_trim_le {bits n : Nat} {exponent : Int} {d : Decimal}
    (hlead : Binary64.value bits < 10 ^ (exponent + n + 1)) (h : onGrid? bits exponent = some d) :
    d.trim.digitChars.length ≤ n + 1 := by
  have hbelow : (below bits exponent).digits < 10 ^ (n + 1) := by
    by_contra hge
    have hvalue := value_le_of_digits_le (Nat.not_lt.mp hge) exponent
    rw [value_ten_pow, Nat.cast_succ, ← add_assoc] at hvalue
    exact (hvalue.trans (value_below_le bits exponent)).not_gt hlead
  rw [length_digitChars_le_iff]
  rcases eq_below_or_above h with rfl | rfl
  · exact (digits_trim_le _).trans_lt hbelow
  · rcases Nat.lt_or_eq_of_le (Nat.succ_le_of_lt hbelow) with hlt | heq
    · exact (digits_trim_le _).trans_lt hlt
    · have habove : above bits exponent = ⟨10 ^ (n + 1), exponent⟩ :=
        congrArg (Decimal.mk · exponent) heq
      rw [habove, digits_trim_ten_pow]
      exact Nat.one_lt_pow (Nat.succ_ne_zero n) (by decide)

/-! ## The search -/

/-- A search through a range that would take something takes the first that it can. -/
theorem exists_first {f : Nat → Option Decimal} {k m : Nat} {a : Decimal} (hm : m < k)
    (hf : f m = some a) : ∃ n d, (List.range k).findSome? f = some d ∧ f n = some d ∧
      ∀ j < k, ∀ b, f j = some b → n ≤ j := by
  cases hfound : (List.range k).findSome? f with
  | none =>
    have hnone := List.findSome?_eq_none_iff.mp hfound m (List.mem_range.mpr hm)
    exact absurd (hf.symm.trans hnone) nofun
  | some d =>
    obtain ⟨front, n, rest, hrange, hn, hfront⟩ := List.findSome?_eq_some_iff.mp hfound
    have hsorted : (front ++ n :: rest).Pairwise (· < ·) := hrange ▸ List.pairwise_lt_range
    refine ⟨n, d, rfl, hn, fun j hj b hb => ?_⟩
    have hmem : j ∈ front ++ n :: rest := hrange ▸ List.mem_range.mpr hj
    rcases List.mem_append.mp hmem with hmem | hmem
    · exact absurd (hb.symm.trans (hfront j hmem)) nofun
    · rcases List.mem_cons.mp hmem with rfl | hmem
      · exact Nat.le_refl _
      · have hrest := (List.pairwise_append.mp hsorted).2.1
        exact (List.rel_of_pairwise_cons hrest hmem).le

theorem digits_pos_of_bits {d : Decimal} (h : 0 < d.bits) : 0 < d.digits := by
  rw [Nat.pos_iff_ne_zero] at h ⊢
  intro hdigits
  refine h (bits_of_value (Nat.zero_le _) ?_)
  have hunits : units 0 = 0 := by decide
  rw [value, hdigits, Binary64.value, hunits, Nat.cast_zero, zero_mul, zero_div]

/-- The decimals that are read as a number and end in no zero, with the fewest digits, and of
these the nearest to its value, the upper of two equally near. -/
structure IsShortest (bits : Nat) (d : Decimal) : Prop where
  bits_eq : d.bits = bits
  trimmed : d.digits % 10 ≠ 0
  fewest : ∀ c : Decimal, c.bits = bits → d.digitChars.length ≤ c.digitChars.length
  nearest : ∀ c : Decimal, c.bits = bits → c.digitChars.length ≤ d.digitChars.length →
    d.NoFarther bits c

/-- A decimal that is read as the number has a rival on the grid with as many places. -/
theorem exists_onGrid?_of_length {bits m : Nat} {c : Decimal} (hpos : 0 < bits)
    (h : bits ≤ infinity) (hc : c.bits = bits) (hm : c.digitChars.length ≤ m + 1) :
    ∃ d, onGrid? bits (leadingExponent (units bits) - m) = some d ∧ d.NoFarther bits c := by
  obtain ⟨hlow, -⟩ := leadingExponent_spec hpos
  rw [← Int.sub_add_cancel (leadingExponent (units bits)) m] at hlow
  exact exists_onGrid? h hc (le_below_or_above_le (length_digitChars_le_iff.mp hm) hlow)

/-- The search ends on the first grid that has a decimal which is read as the number. -/
theorem shortest_of_search {bits : Nat} (hpos : 0 < bits) (h : bits < infinity) :
    ∃ (n : Nat) (d : Decimal), n ≤ 16 ∧
      onGrid? bits (leadingExponent (units bits) - n) = some d ∧
      shortest bits = d.trim ∧ d.trim.digitChars.length ≤ n + 1 ∧
      ∀ m : Nat, m ≤ 16 → ∀ b, onGrid? bits (leadingExponent (units bits) - m) = some b →
        n ≤ m := by
  obtain ⟨-, hhigh⟩ := leadingExponent_spec hpos
  obtain ⟨a, ha⟩ := exists_seventeen hpos h
  obtain ⟨n, d, hfound, hn, hfirst⟩ := exists_first
    (f := fun n : Nat => onGrid? bits (leadingExponent (units bits) - n)) (by decide : 16 < 17) ha
  rw [← Int.sub_add_cancel (leadingExponent (units bits)) n] at hhigh
  refine ⟨n, d, hfirst 16 (by decide) a ha, hn, ?_, length_trim_le hhigh hn, fun m hm =>
    hfirst m (Nat.lt_succ_of_le hm)⟩
  rw [shortest, hfound]
  rfl

theorem length_shortest_le {bits : Nat} (hpos : 0 < bits) (h : bits < infinity) :
    (shortest bits).digitChars.length ≤ 17 := by
  obtain ⟨n, d, hn, -, hshortest, hlength, -⟩ := shortest_of_search hpos h
  rw [hshortest]
  omega

theorem isShortest_shortest {bits : Nat} (hpos : 0 < bits) (h : bits < infinity) :
    IsShortest bits (shortest bits) := by
  have hbits := bits_shortest h.le
  have hseventeen := length_shortest_le hpos h
  obtain ⟨n, d, -, hgrid, hshortest, hlength, hfirst⟩ := shortest_of_search hpos h
  rw [hshortest] at hbits hseventeen ⊢
  have hdigits : 0 < d.digits := digits_pos_of_bits (by rwa [← bits_trim, hbits])
  refine ⟨hbits, digits_trim_mod_ne hdigits, fun c hc => ?_, fun c hc hle => ?_⟩
  · -- with seventeen digits or fewer, `c` has a rival on a grid that the search comes to
    obtain ⟨m, hm⟩ := Nat.exists_eq_add_one.mpr
      (List.length_pos_of_ne_nil (Nat.toDigits_ne_nil (n := c.digits) (b := 10)))
    have hplaces : c.digitChars.length = m + 1 := hm
    rcases le_or_gt m 16 with hle | hgt
    · obtain ⟨b, hb, -⟩ := exists_onGrid?_of_length hpos h.le hc hplaces.le
      have hnm := hfirst m hle b hb
      omega
    · omega
  · obtain ⟨b, hb, hnear⟩ := exists_onGrid?_of_length hpos h.le hc (hle.trans hlength)
    obtain rfl : b = d := Option.some.inj (hb.symm.trans hgrid)
    rwa [NoFarther, value_trim]

theorem IsShortest.unique {bits : Nat} {c d : Decimal} (hc : IsShortest bits c)
    (hd : IsShortest bits d) : c = d := by
  obtain ⟨hle, hupper⟩ := hc.nearest d hd.bits_eq (hd.fewest c hc.bits_eq)
  obtain ⟨hge, hupper'⟩ := hd.nearest c hc.bits_eq (hc.fewest d hd.bits_eq)
  have hnear := le_antisymm hle hge
  exact eq_of_value_eq hc.trimmed hd.trimmed (le_antisymm (hupper' hnear.symm) (hupper hnear))

/-- The shortest decimal of a number is the one that is expected of its text. -/
theorem isShortest_iff {bits : Nat} {d : Decimal} (hpos : 0 < bits) (h : bits < infinity) :
    IsShortest bits d ↔ d = shortest bits := by
  have hshortest := isShortest_shortest hpos h
  exact ⟨fun hd => hd.unique hshortest, fun hd => hd ▸ hshortest⟩

end Decimal
end Lox
