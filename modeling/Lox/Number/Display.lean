import Lox.Number.Forms

/-! How the language writes a number. The form with an exponent is taken apart behind its
mantissa, and the exponent is read: a number whose exponent is small is written with the
point in place, any other with the exponent put together anew. -/

namespace Lox

/-- What stands before the first separator of a text, and what behind it. -/
def splitOnce (separator : Char) : List Char → Option (List Char × List Char)
  | [] => none
  | c :: rest =>
    if c = separator then some ([], rest)
    else (splitOnce separator rest).map fun parts => (c :: parts.1, parts.2)

def readDigits? (chars : List Char) : Option Nat :=
  if chars ≠ [] ∧ chars.all Char.isDigit then some (Nat.ofDigitChars 10 chars 0) else none

/-- The whole number that digits write, behind a sign or without one. -/
def readSigned? : List Char → Option Int
  | '-' :: digits => (readDigits? digits).map fun n : Nat => -(n : Int)
  | '+' :: digits => (readDigits? digits).map fun n : Nat => (n : Int)
  | digits => (readDigits? digits).map fun n : Nat => (n : Int)

/-- The same where 32 bits hold the number. -/
def readInt32? (chars : List Char) : Option Int :=
  (readSigned? chars).filter fun n => -2147483648 ≤ n ∧ n ≤ 2147483647

/-- The digits of a number, behind zeros up to a width. -/
def padded (width n : Nat) : List Char :=
  let digits := Nat.toDigits 10 n
  List.replicate (width - digits.length) '0' ++ digits

/-- The characters of a number. With an exponent that is not found or not read it would be
written with the point in place. -/
def numberChars (x : Float) : List Char :=
  if x.isNaN then ['n', 'a', 'n']
  else if x.isInf then
    if 0 < x then ['i', 'n', 'f'] else ['-', 'i', 'n', 'f']
  else
    match splitOnce 'e' (Binary64.exponential x) with
    | none => Binary64.positional x
    | some (mantissa, chars) =>
      match readInt32? chars with
      | none => Binary64.positional x
      | some exponent =>
        if x == 0 ∨ -4 ≤ exponent ∧ exponent < 16 then Binary64.positional x
        else
          let sign := if exponent < 0 then '-' else '+'
          mantissa ++ 'e' :: sign :: padded 2 exponent.natAbs

/-- The text of a number in the language. -/
def displayNumber (x : Float) : String :=
  String.ofList (numberChars x)

end Lox
