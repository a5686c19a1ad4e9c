/-! The nonnegative binary64 numbers in exact arithmetic. Each finite one is a
natural multiple of 2^-1074, its `units`; its bits, read as a number, grow with
its value up to the bits of infinity. `nearest` rounds any fraction to bits, a
tie to the even significand. -/

namespace Lox.Binary64

/-- The place of the sign in the bits. -/
def signPlace : Nat := Nat.pow 2 63

/-- The bits of infinity; those above it, below the sign, are not numbers. -/
def infinity : Nat := 2047 * Nat.pow 2 52

/-- How many units make one. -/
def one : Nat := Nat.pow 2 1074

/-- The power of two that the significand is multiplied by, counted in units. -/
def scale (bits : Nat) : Nat :=
  bits / Nat.pow 2 52 - 1

def significand (bits : Nat) : Nat :=
  bits - scale bits * Nat.pow 2 52

def units (bits : Nat) : Nat :=
  significand bits * Nat.pow 2 (scale bits)

/-- The quotient rounded to the nearest whole number, a tie to the even one. -/
def roundDiv (num den : Nat) : Nat :=
  let whole := num / den
  let rest := num % den
  if 2 * rest < den then whole
  else if den < 2 * rest then whole + 1
  else whole + whole % 2

/-- The scale at which the whole part of a number of units has at most 53 digits. -/
def scaleFor (units : Nat) : Nat :=
  units.log2 - 52

/-- The bits of the number nearest to `num / den`. A significand that rounds up to
2^53 carries into the exponent, and past the last exponent lies infinity. -/
def nearest (num den : Nat) : Nat :=
  let scale := scaleFor (num * one / den)
  min (scale * Nat.pow 2 52 + roundDiv (num * one) (den * Nat.pow 2 scale)) infinity

theorem nearest_le_infinity (num den : Nat) : nearest num den ≤ infinity :=
  Nat.min_le_right _ _

end Lox.Binary64
