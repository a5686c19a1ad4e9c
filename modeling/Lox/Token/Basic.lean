import Lox.Token.Kind

/-! Tokens and the literals they carry. Numbers are binary64, and the equality of
the language on them is the IEEE one: `Literal.equals` and what is built on it
are not reflexive (NaN), and they identify the two zeros. Lean's own `=` on these
types is identity, number by number and bit by bit. -/

namespace Lox

inductive Literal where
  | number (value : Float)
  | string (text : String)
  deriving DecidableEq

def Literal.equals : Literal → Literal → Bool
  | .number x, .number y => x == y
  | .string s, .string t => s == t
  | _, _ => false

/-- An equality carried over to values that may be missing. -/
def optionEquals {α : Type} (equals : α → α → Bool) : Option α → Option α → Bool
  | some a, some b => equals a b
  | none, none => true
  | _, _ => false

structure Token where
  kind : TokenKind
  lexeme : String
  literal : Option Literal
  /-- Lines count from 1. -/
  line : Nat
  deriving DecidableEq

namespace Token

/-- The token that ends every scanned text. -/
def eof (line : Nat) : Token :=
  ⟨.eof, "", none, line⟩

def isEof (t : Token) : Bool :=
  t.kind == .eof

theorem isEof_iff {t : Token} : t.isEof = true ↔ t.kind = .eof :=
  beq_iff_eq

def equals (a b : Token) : Bool :=
  a.kind == b.kind && a.lexeme == b.lexeme && a.line == b.line
    && optionEquals Literal.equals a.literal b.literal

end Token

end Lox
