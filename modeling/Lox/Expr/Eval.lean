import Lox.Expr.Basic
import Lox.Log

/-! Evaluation of a tree to a value, operands first and the left one before the right.
It ends at the first fault: an operator that does not apply to its operands, or one
that cannot stand at its place in any tree that was read from a text. Each binary
operator whose operands both have values leaves a record before it is applied. -/

namespace Lox

/-- The rule on operands that an operator broke. -/
inductive TypeRule where
  | operandNumber
  | operandsNumbers
  | operandsAddable
  deriving DecidableEq, Repr

structure RuntimeError where
  rule : TypeRule
  operator : Token
  deriving DecidableEq

namespace RuntimeError

def message (e : RuntimeError) : String :=
  match e.rule with
  | .operandNumber => "Operand must be a number."
  | .operandsNumbers => "Operands must be numbers."
  | .operandsAddable => "Operands must be two numbers or two strings."

def line (e : RuntimeError) : Nat :=
  e.operator.line

end RuntimeError

/-- What an operator was taken for. -/
inductive Place where
  | unary
  | binary
  | numeric
  deriving DecidableEq, Repr

/-- An operator at a place where no reader puts it. -/
structure Defect where
  place : Place
  operator : Token
  deriving DecidableEq

def Defect.message (d : Defect) : String :=
  let kind := d.operator.kind.name
  "internal error: entered unreachable code: " ++ match d.place with
    | .unary => "parser produced unary operator " ++ kind
    | .binary => "parser produced binary operator " ++ kind
    | .numeric => kind ++ " is not a numeric operator"

inductive Fault where
  | runtime (error : RuntimeError)
  | defect (defect : Defect)
  deriving DecidableEq

def applyUnary (op : Token) (v : Value) : Except Fault Value :=
  match op.kind with
  | .symbol .bang => return .bool !v.truthy
  | .symbol .minus =>
    match v.number? with
    | some x => return .number (-x)
    | none => throw (.runtime ⟨.operandNumber, op⟩)
  | _ => throw (.defect ⟨.unary, op⟩)

def add (op : Token) : Value → Value → Except Fault Value
  | .number x, .number y => return .number (x + y)
  | .string s, .string t => return .string (s ++ t)
  | _, _ => throw (.runtime ⟨.operandsAddable, op⟩)

/-- Applies an operator that wants numbers on both sides. -/
def onNumbers (op : Token) (v w : Value) : Except Fault Value :=
  match v.number?, w.number? with
  | some x, some y =>
    match op.kind with
    | .symbol .greater => return .bool (y < x)
    | .symbol .greaterEqual => return .bool (y ≤ x)
    | .symbol .less => return .bool (x < y)
    | .symbol .lessEqual => return .bool (x ≤ y)
    | .symbol .minus => return .number (x - y)
    | .symbol .slash => return .number (x / y)
    | .symbol .star => return .number (x * y)
    | _ => throw (.defect ⟨.numeric, op⟩)
  | _, _ => throw (.runtime ⟨.operandsNumbers, op⟩)

def applyBinary (op : Token) (v w : Value) : Except Fault Value :=
  match op.kind with
  | .symbol .plus => add op v w
  | .symbol .equalEqual => return .bool (v.equals w)
  | .symbol .bangEqual => return .bool !v.equals w
  | .symbol .greater | .symbol .greaterEqual | .symbol .less | .symbol .lessEqual
  | .symbol .minus | .symbol .slash | .symbol .star => onNumbers op v w
  | _ => throw (.defect ⟨.binary, op⟩)

/-- The record of a binary operator about to be applied. -/
def applicationRecord (op : Token) (v w : Value) : LogRecord :=
  ⟨.trace, v.typeName ++ " " ++ op.lexeme ++ " " ++ w.typeName⟩

/-- How an evaluation ended, and the records it left, oldest first. -/
structure Evaluation where
  result : Except Fault Value
  records : List LogRecord

/-- Goes on with the value of an evaluation, unless a fault ended it. -/
def Evaluation.bind (m : Evaluation) (f : Value → Evaluation) : Evaluation :=
  match m.result with
  | .error fault => ⟨.error fault, m.records⟩
  | .ok v =>
    let next := f v
    ⟨next.result, m.records ++ next.records⟩

namespace Expr

def evaluate : Expr → Evaluation
  | literal v => ⟨return v, []⟩
  | group e => e.evaluate
  | unary op e => e.evaluate.bind fun v => ⟨applyUnary op v, []⟩
  | binary l op r =>
    l.evaluate.bind fun v =>
    r.evaluate.bind fun w => ⟨applyBinary op v w, [applicationRecord op v w]⟩

/-- The value of a tree, or the fault. -/
def value (e : Expr) : Except Fault Value :=
  e.evaluate.result

end Expr

end Lox
