import Lox.Diagnostic
import Lox.Expr.Basic

/-! Reading one expression from the front of a list of tokens, by descent. Four
levels of binary operators bind ever tighter and group to the left; below them
stand the prefix operators, then literals and parentheses. The reader takes the
tokens before the first end marker and leaves what it cannot use; each step hands
back a rest that is shorter, which is why it ends. -/

namespace Lox

/-- The levels of binary operators, loosest first. -/
inductive Level where
  | equality
  | comparison
  | term
  | factor
  deriving DecidableEq, Repr

inductive Nonterminal where
  | level (level : Level)
  | unary
  | primary
  deriving DecidableEq, Repr

namespace Level

def symbols : Level → List Symbol
  | equality => [.bangEqual, .equalEqual]
  | comparison => [.greater, .greaterEqual, .less, .lessEqual]
  | term => [.minus, .plus]
  | factor => [.slash, .star]

/-- What stands on both sides of an operator of the level. -/
def operand : Level → Nonterminal
  | equality => .level comparison
  | comparison => .level term
  | term => .level factor
  | factor => .unary

def accepts (l : Level) (kind : TokenKind) : Bool :=
  l.symbols.any (kind == .symbol ·)

end Level

/-- The operators that stand before their operand. -/
def TokenKind.isUnaryOperator (kind : TokenKind) : Bool :=
  kind == .symbol .bang || kind == .symbol .minus

namespace Nonterminal

/-- An expression is anything of the loosest level. -/
def expression : Nonterminal :=
  level .equality

/-- How far a nonterminal stands above the literals. -/
def rank : Nonterminal → Nat
  | level .equality => 5
  | level .comparison => 4
  | level .term => 3
  | level .factor => 2
  | unary => 1
  | primary => 0

theorem rank_operand_lt (l : Level) : l.operand.rank < (level l).rank := by
  cases l <;> decide

end Nonterminal

theorem Level.rank_operand_le (l : Level) : l.operand.rank ≤ 4 := by
  cases l <;> decide

/-- The value of a token that is an operand by itself. -/
def Token.leaf? (t : Token) : Option Value :=
  match t.kind with
  | .keyword .nil => some .nil
  | .keyword .true => some (.bool true)
  | .keyword .false => some (.bool false)
  | .number | .string => t.literal.map (·.toValue)
  | _ => none

/-- Where reading stopped, and what was wanted there. -/
structure Stuck where
  expected : Expectation
  rest : List Token
  deriving DecidableEq

/-- What was read from the front of a list of tokens, and the rest, which has fewer
than `bound`. -/
structure Read (bound : Nat) where
  expr : Expr
  rest : List Token
  length_rest_lt : rest.length < bound

mutual

def Nonterminal.read (n : Nonterminal) (ts : List Token) : Except Stuck (Read ts.length) :=
  match n, ts with
  | .level l, ts => do
    let ⟨left, rest, h⟩ ← l.operand.read ts
    let ⟨e, after, h'⟩ ← l.more left rest
    return ⟨e, after, Nat.lt_of_lt_of_le h' h⟩
  | .unary, [] => Nonterminal.primary.read []
  | .unary, op :: rest =>
    if op.kind.isUnaryOperator then do
      let ⟨e, after, h⟩ ← Nonterminal.unary.read rest
      return ⟨.unary op e, after, Nat.lt_succ_of_lt h⟩
    else Nonterminal.primary.read (op :: rest)
  | .primary, [] => throw ⟨.expression, []⟩
  | .primary, t :: rest =>
    if t.kind = .symbol .leftParen then do
      let ⟨e, after, h⟩ ← Nonterminal.expression.read rest
      match after, h with
      | [], _ => throw ⟨.closingParen, []⟩
      | close :: after, h =>
        if close.kind = .symbol .rightParen then
          return ⟨.group e, after, Nat.lt_succ_of_lt (Nat.lt_of_succ_lt h)⟩
        else throw ⟨.closingParen, close :: after⟩
    else match t.leaf? with
      | some v => return ⟨.literal v, rest, Nat.lt_succ_self _⟩
      | none => throw ⟨.expression, t :: rest⟩
termination_by 8 * ts.length + n.rank
decreasing_by
  all_goals grind [Nonterminal.rank, Nonterminal.expression, Nonterminal.rank_operand_lt]

/-- Goes on after a left operand, for as long as operators of the level follow. -/
def Level.more (l : Level) (left : Expr) (ts : List Token) :
    Except Stuck (Read (ts.length + 1)) :=
  match ts with
  | [] => return ⟨left, [], Nat.lt_succ_self _⟩
  | op :: rest =>
    if l.accepts op.kind then do
      let ⟨right, after, h⟩ ← l.operand.read rest
      let ⟨e, last, h'⟩ ← l.more (.binary left op right) after
      return ⟨e, last, Nat.lt_of_lt_of_le h' (Nat.le_succ_of_le (Nat.le_succ_of_le h))⟩
    else return ⟨left, op :: rest, Nat.lt_succ_self _⟩
termination_by 8 * ts.length + 6
decreasing_by
  all_goals
    have := l.rank_operand_le
    simp only [List.length_cons]
    omega

end

/-- The marker that ends the readable part of a list of tokens: the first one, provided
that the list itself ends with one. -/
def endMarker? (ts : List Token) : Option Token :=
  if ts.getLast?.any Token.isEof then ts.find? Token.isEof else none

/-- Why a list of tokens gives no expression. One that does not end with an end
marker is refused without a word. -/
inductive ParseFailure where
  | unmarked
  | problem (problem : Problem)
  deriving DecidableEq

def ParseFailure.problem? : ParseFailure → Option Problem
  | unmarked => none
  | problem p => some p

/-- Reads one expression. The token at fault is the first that could not be used or,
where none is left, the end marker. -/
def parse (ts : List Token) : Except ParseFailure Expr :=
  match endMarker? ts with
  | none => throw .unmarked
  | some stop =>
    match Nonterminal.expression.read (ts.takeWhile (!·.isEof)) with
    | .ok r => return r.expr
    | .error s => throw (.problem (.expected s.expected (s.rest.headD stop)))

end Lox
