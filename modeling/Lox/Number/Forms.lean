import Lox.Number.Decimal

/-! The two plain forms of a number, both of its shortest digits: with the point in place, and
with the point behind the first digit and an exponent. -/

namespace Lox

namespace Decimal

def digitChars (d : Decimal) : List Char :=
  Nat.toDigits 10 d.digits

/-- The power of ten at the first digit. -/
def leading (d : Decimal) : Int :=
  d.exponent + (d.digitChars.length - 1)

/-- The decimal with its point in place: `300`, `0.5`, `1234.5`. -/
def positional (d : Decimal) : List Char :=
  let places := (-d.exponent).toNat
  let digits := d.digitChars ++ List.replicate d.exponent.toNat '0'
  if places = 0 then digits
  else
    let padded := List.replicate (places + 1 - digits.length) '0' ++ digits
    let whole := padded.length - places
    padded.take whole ++ '.' :: padded.drop whole

/-- The mantissa, with a point after its first digit unless that is the only one. -/
def mantissa (d : Decimal) : List Char :=
  match d.digitChars with
  | first :: second :: rest => first :: '.' :: second :: rest
  | short => short

def signedChars (n : Int) : List Char :=
  let digits := Nat.toDigits 10 n.natAbs
  if n < 0 then '-' :: digits else digits

/-- The decimal with an exponent: `1.5e-7`, `3e0`. -/
def exponential (d : Decimal) : List Char :=
  d.mantissa ++ 'e' :: signedChars d.leading

end Decimal

namespace Binary64

/-- The decimal that stands for a number but for its sign. -/
def decimal (bits : Nat) : Decimal :=
  if bits = 0 then ⟨0, 0⟩ else .shortest bits

/-- The number with these bits in a form of decimals. NaN has no sign. -/
def spell (form : Decimal → List Char) (bits : Nat) : List Char :=
  let magnitude := bits % signPlace
  if infinity < magnitude then ['N', 'a', 'N']
  else
    let chars := if magnitude = infinity then ['i', 'n', 'f'] else form (decimal magnitude)
    if signPlace ≤ bits then '-' :: chars else chars

/-- A number with its point in place. -/
def positional (x : Float) : List Char :=
  spell Decimal.positional x.toBits.toNat

/-- A number with an exponent. -/
def exponential (x : Float) : List Char :=
  spell Decimal.exponential x.toBits.toNat

end Binary64

end Lox
