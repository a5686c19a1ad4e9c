import Lox.Value

/-! Expression trees. Grouping is kept in the tree, and an operator node holds the
token it was written with, so that a fault can name its line. -/

namespace Lox

inductive Expr where
  | literal (value : Value)
  | group (inner : Expr)
  | unary (operator : Token) (operand : Expr)
  | binary (left : Expr) (operator : Token) (right : Expr)
  deriving DecidableEq

namespace Expr

/-- The tree in prefix form, every inner node in parentheses. -/
def display : Expr → String
  | literal v => v.display
  | group e => "(group " ++ e.display ++ ")"
  | unary op e => "(" ++ op.lexeme ++ " " ++ e.display ++ ")"
  | binary l op r => "(" ++ op.lexeme ++ " " ++ l.display ++ " " ++ r.display ++ ")"

/-- Equality node by node, with `Value.equals` at the leaves and `Token.equals` on
operators. -/
def equals : Expr → Expr → Bool
  | literal v, literal w => v.equals w
  | group a, group b => equals a b
  | unary op a, unary op' b => op.equals op' && equals a b
  | binary l op r, binary l' op' r' => equals l l' && op.equals op' && equals r r'
  | _, _ => false

/-- Equality of what two readings gave. -/
def equals? : Option Expr → Option Expr → Bool :=
  optionEquals equals

end Expr

end Lox
