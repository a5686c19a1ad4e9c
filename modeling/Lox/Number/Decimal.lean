import Lox.Number.Binary64

/-! Decimals: a natural number of digits scaled by a power of ten. A numeral is
read into one, and the binary64 number nearest to it is exact integer arithmetic
from there. In the other direction `shortest` finds, for the bits of a number,
the decimal with the fewest digits that reads back, the nearest of those, and the
upper one of two equally near. -/

namespace Lox

structure Decimal where
  digits : Nat
  exponent : Int
  deriving DecidableEq, Repr

namespace Decimal

def numerator (d : Decimal) : Nat :=
  d.digits * Nat.pow 10 d.exponent.toNat

def denominator (d : Decimal) : Nat :=
  Nat.pow 10 (-d.exponent).toNat

theorem denominator_pos (d : Decimal) : 0 < d.denominator :=
  Nat.pow_pos (by decide)

/-- The bits of the binary64 number nearest to a decimal. -/
def bits (d : Decimal) : Nat :=
  Binary64.nearest d.numerator d.denominator

def toFloat (d : Decimal) : Float :=
  Float.ofBits (UInt64.ofNat d.bits)

/-- The decimal that a numeral writes, by the digits on either side of its point. -/
def ofNumeral (whole fraction : List Char) : Decimal :=
  ⟨Nat.ofDigitChars 10 (whole ++ fraction) 0, -fraction.length⟩

/-- The value of `bits` written out in full. -/
def exact (bits : Nat) : Decimal :=
  ⟨Binary64.units bits * Nat.pow 5 1074, -1074⟩

/-- The power of ten at the leading digit of a number of units, found by counting
the digits before the point after a shift by 324 places: the smallest binary64
number has its leading digit there. -/
def leadingExponent (units : Nat) : Int :=
  (Nat.toDigits 10 (units * Nat.pow 10 324 / Binary64.one)).length - 325

/-- The multiple of `10 ^ exponent` that reads back as `bits`, among the two around
its value. -/
def onGrid? (bits : Nat) (exponent : Int) : Option Decimal :=
  let num := Binary64.units bits * Nat.pow 10 (-exponent).toNat
  let den := Binary64.one * Nat.pow 10 exponent.toNat
  let low : Decimal := ⟨num / den, exponent⟩
  let high : Decimal := ⟨num / den + 1, exponent⟩
  if low.bits = bits then
    if high.bits = bits ∧ den ≤ 2 * (num % den) then some high else some low
  else if high.bits = bits then some high
  else none

/-- The same decimal without zeros at the end of its digits. -/
def trim (d : Decimal) : Decimal :=
  if 0 < d.digits ∧ d.digits % 10 = 0 then trim ⟨d.digits / 10, d.exponent + 1⟩ else d
termination_by d.digits
decreasing_by exact Nat.div_lt_self (by omega) (by decide)

/-- Tries one digit, then two, up to the seventeen that always suffice. -/
def shortest (bits : Nat) : Decimal :=
  let leading := leadingExponent (Binary64.units bits)
  (((List.range 17).findSome? fun n : Nat => onGrid? bits (leading - n)).getD (exact bits)).trim

theorem bits_of_onGrid? {bits : Nat} {exponent : Int} {d : Decimal}
    (h : onGrid? bits exponent = some d) : d.bits = bits := by
  simp only [onGrid?] at h
  split at h
  · split at h
    · rename_i hh
      exact Option.some.inj h ▸ hh.1
    · rename_i hl _
      exact Option.some.inj h ▸ hl
  · split at h
    · rename_i hh
      exact Option.some.inj h ▸ hh
    · exact absurd h (by simp)

end Decimal

end Lox
