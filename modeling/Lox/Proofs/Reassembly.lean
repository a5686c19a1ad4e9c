import Lox.Number.Display
import Lox.Proofs.FloatBits
import Lox.Proofs.Shortest

/-! How the text of a number comes about. The form with an exponent has one `e` behind its
mantissa (`splitOnce_exponential`), and what stands behind it is read as the exponent that was
written, which 32 bits hold for every number (`readInt32?_signedChars`, `Decimal.leading_bounds`).
So the text is that of the decimal, laid out by its own exponent (`numberChars_of_finite`). -/

namespace Lox

/-! ## Splitting and reading -/

theorem splitOnce_append {separator : Char} {front : List Char} (h : separator ∉ front)
    (back : List Char) : splitOnce separator (front ++ separator :: back) = some (front, back) := by
  induction front with
  | nil => exact if_pos rfl
  | cons c front ih =>
    have hc : c ≠ separator := fun he => h (he ▸ List.mem_cons_self)
    rw [List.cons_append, splitOnce, if_neg hc, ih fun hmem => h (List.mem_cons_of_mem c hmem)]
    rfl

theorem readDigits?_toDigits (n : Nat) : readDigits? (Nat.toDigits 10 n) = some n := by
  have hall : (Nat.toDigits 10 n).all Char.isDigit = true :=
    List.all_eq_true.mpr fun c hc => Nat.isDigit_of_mem_toDigits (by decide) (by decide) hc
  rw [readDigits?, if_pos ⟨Nat.toDigits_ne_nil, hall⟩, Nat.ofDigitChars_ten_toDigits]

/-- Digits are read without a sign. -/
theorem readSigned?_of_isDigit {c : Char} {rest : List Char} (h : c.isDigit = true) :
    readSigned? (c :: rest) = (readDigits? (c :: rest)).map fun n : Nat => (n : Int) := by
  unfold readSigned?
  split <;> rename_i heq
  · rw [(List.cons.inj heq).1] at h
    cases h
  · rw [(List.cons.inj heq).1] at h
    cases h
  · rfl

theorem readSigned?_signedChars (n : Int) : readSigned? (Decimal.signedChars n) = some n := by
  unfold Decimal.signedChars
  dsimp only
  split
  · rw [readSigned?, readDigits?_toDigits, Option.map_some]
    congr 1
    omega
  · obtain ⟨c, rest, hdigits⟩ :=
      List.exists_cons_of_ne_nil (Nat.toDigits_ne_nil (n := n.natAbs) (b := 10))
    have hc : c.isDigit = true :=
      Nat.isDigit_of_mem_toDigits (by decide) (by decide) (hdigits ▸ List.mem_cons_self)
    rw [hdigits, readSigned?_of_isDigit hc, ← hdigits, readDigits?_toDigits, Option.map_some]
    congr 1
    omega

theorem readInt32?_signedChars {n : Int} (h : -2147483648 ≤ n ∧ n ≤ 2147483647) :
    readInt32? (Decimal.signedChars n) = some n := by
  rw [readInt32?, readSigned?_signedChars, Option.filter_some, if_pos (by simpa using h)]

namespace Decimal
open Binary64

/-! ## The leading exponent -/

theorem pow_leading_le_value {d : Decimal} (h : 0 < d.digits) :
    10 ^ d.leading ≤ d.value ∧ d.value < 10 ^ (d.leading + 1) := by
  obtain ⟨n, hn⟩ := Nat.exists_eq_add_one.mpr (List.length_pos_of_ne_nil
    (Nat.toDigits_ne_nil (n := d.digits) (b := 10)))
  have hlow : 10 ^ n ≤ d.digits := by
    have hle := ten_pow_length_le h
    rwa [hn, Nat.add_sub_cancel] at hle
  have hhigh : d.digits < 10 ^ (n + 1) := length_digitChars_le_iff.mp (Nat.le_of_eq hn)
  have hten : (10 : Rat) ≠ 0 := by norm_num
  have hpos : (0 : Rat) < 10 ^ d.exponent := zpow_pos (by norm_num) _
  have hleading : d.leading = (n : Int) + d.exponent := by
    rw [leading, digitChars, hn]
    omega
  have hnext : d.leading + 1 = ((n + 1 : Nat) : Int) + d.exponent := by omega
  rw [hnext, hleading, zpow_add₀ hten, zpow_add₀ hten, zpow_natCast, zpow_natCast, value]
  exact ⟨mul_le_mul_of_nonneg_right (by exact_mod_cast hlow) hpos.le,
    mul_lt_mul_of_pos_right (by exact_mod_cast hhigh) hpos⟩

theorem value_one (exponent : Int) : (⟨1, exponent⟩ : Decimal).value = 10 ^ exponent := by
  rw [value, Nat.cast_one, one_mul]

/-- The leading exponent of what is read as a number, neither zero nor infinite. -/
theorem leading_bounds {d : Decimal} (hpos : 0 < d.bits) (hlt : d.bits < infinity) :
    -324 ≤ d.leading ∧ d.leading ≤ 308 := by
  obtain ⟨hlow, hhigh⟩ := pow_leading_le_value (digits_pos_of_bits hpos)
  have hgreat : (⟨1, 309⟩ : Decimal).bits = infinity := by decide +kernel
  have hsmall : (⟨1, -324⟩ : Decimal).bits = 0 := by decide +kernel
  constructor
  · by_contra hout
    have hvalue : d.value ≤ (⟨1, -324⟩ : Decimal).value := by
      rw [value_one]
      exact hhigh.le.trans (zpow_le_zpow_right₀ (by norm_num) (by omega))
    have hle := bits_le_of_value_le hvalue
    omega
  · by_contra hout
    have hvalue : (⟨1, 309⟩ : Decimal).value ≤ d.value := by
      rw [value_one]
      exact (zpow_le_zpow_right₀ (by norm_num) (by omega)).trans hlow
    have hle := bits_le_of_value_le hvalue
    omega

theorem e_not_mem_mantissa (d : Decimal) : 'e' ∉ d.mantissa := by
  have hdigits : 'e' ∉ d.digitChars := fun hmem =>
    absurd (Nat.isDigit_of_mem_toDigits (by decide) (by decide) hmem) (by decide)
  unfold mantissa
  split
  · rename_i first second rest heq
    simpa [heq] using hdigits
  · exact hdigits

/-- The text of a decimal, laid out by its own exponent. -/
def write (d : Decimal) : List Char :=
  if -4 ≤ d.leading ∧ d.leading < 16 then d.positional
  else d.mantissa ++ 'e' :: (if d.leading < 0 then '-' else '+') :: padded 2 d.leading.natAbs

end Decimal

namespace Binary64

/-! ## Numbers -/

theorem bits_decimal {bits : Nat} (h : bits ≤ infinity) : (decimal bits).bits = bits := by
  unfold decimal
  split
  · rename_i hzero
    rw [hzero]
    decide +kernel
  · exact Decimal.bits_shortest h

/-- 32 bits are more than enough for the exponent of a finite number. -/
theorem leading_decimal_bounds {bits : Nat} (h : bits < infinity) :
    -2147483648 ≤ (decimal bits).leading ∧ (decimal bits).leading ≤ 2147483647 := by
  rcases Nat.eq_zero_or_pos bits with rfl | hpos
  · decide
  · have hbits := bits_decimal h.le
    have hbounds := Decimal.leading_bounds (hbits.symm ▸ hpos) (hbits.symm ▸ h)
    omega

/-- A finite number in a form of decimals. -/
theorem spell_of_finite {x : Float} (h : x.isFinite = true) (form : Decimal → List Char) :
    spell form x.toBits.toNat =
      if Negative x then '-' :: form (decimal (magnitude x)) else form (decimal (magnitude x)) := by
  have hlt : magnitude x < infinity := isFinite_iff.mp h
  have hmagnitude : x.toBits.toNat % signPlace = magnitude x := rfl
  simp only [spell, hmagnitude, if_neg hlt.not_gt, if_neg hlt.ne]
  rfl

theorem splitOnce_exponential {x : Float} (h : x.isFinite = true) :
    splitOnce 'e' (exponential x) = some
      (if Negative x then '-' :: (decimal (magnitude x)).mantissa
        else (decimal (magnitude x)).mantissa,
      Decimal.signedChars (decimal (magnitude x)).leading) := by
  have hmantissa := (decimal (magnitude x)).e_not_mem_mantissa
  rw [exponential, spell_of_finite h]
  split
  · have hsigned : 'e' ∉ '-' :: (decimal (magnitude x)).mantissa := by simpa using hmantissa
    exact splitOnce_append hsigned _
  · exact splitOnce_append hmantissa _

theorem magnitude_eq_zero_of_beq {x : Float} (h : (x == 0) = true) : magnitude x = 0 := by
  rcases eq_or_zero_of_beq h with rfl | ⟨hzero, -⟩
  · decide +kernel
  · exact hzero

theorem numberChars_of_nan {x : Float} (h : x.isNaN = true) :
    numberChars x = ['n', 'a', 'n'] :=
  if_pos h

theorem numberChars_of_inf {x : Float} (h : x.isInf = true) :
    numberChars x = if Negative x then ['-', 'i', 'n', 'f'] else ['i', 'n', 'f'] := by
  have hm : magnitude x = infinity := isInf_iff.mp h
  have hnan : ¬ x.isNaN = true := mt isNaN_iff.mp hm.not_gt
  rw [numberChars, if_neg hnan, if_pos h]
  by_cases hx : Negative x
  · obtain rfl : x = Float.ofBits 0xfff0000000000000 := Float.toBits_inj.mp
      (toBits_eq_of_parts (hm.trans (by decide +kernel)) (iff_of_true hx (by decide +kernel)))
    decide +kernel
  · obtain rfl : x = Float.ofBits 0x7ff0000000000000 := Float.toBits_inj.mp
      (toBits_eq_of_parts (hm.trans (by decide +kernel)) (iff_of_false hx (by decide +kernel)))
    decide +kernel

/-- Behind its sign, a finite number is written as its decimal is laid out. -/
theorem numberChars_of_finite {x : Float} (h : x.isFinite = true) :
    numberChars x =
      if Negative x then '-' :: (decimal (magnitude x)).write else (decimal (magnitude x)).write := by
  have hlt : magnitude x < infinity := isFinite_iff.mp h
  have hnan : ¬ x.isNaN = true := mt isNaN_iff.mp hlt.not_gt
  have hinf : ¬ x.isInf = true := mt isInf_iff.mp hlt.ne
  rw [numberChars, if_neg hnan, if_neg hinf, splitOnce_exponential h]
  simp only [readInt32?_signedChars (leading_decimal_bounds hlt), positional, spell_of_finite h]
  have hzero : (x == 0) = true → -4 ≤ (decimal (magnitude x)).leading ∧
      (decimal (magnitude x)).leading < 16 := by
    intro hx
    rw [magnitude_eq_zero_of_beq hx]
    decide
  simp only [or_iff_right_of_imp hzero, Decimal.write]
  by_cases hx : Negative x
  · simp only [if_pos hx]
    split <;> rfl
  · simp only [if_neg hx]

end Binary64

end Lox
