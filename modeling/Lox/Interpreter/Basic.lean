import Lox.Expr.Eval
import Lox.Interpreter.Sink
import Lox.Reading

/-! Running texts and trees. A text with a problem is not evaluated; otherwise its
tree is, and the value is written to the sink on a line of its own. In a session
the sink is all that passes from one step to the next. -/

namespace Lox

/-- Why a run gave no value. -/
inductive Failure where
  | static (diagnostics : Diagnostics)
  | runtime (error : RuntimeError)
  | write
  | defect (defect : Defect)
  deriving DecidableEq

namespace Failure

def ofFault : Fault → Failure
  | .runtime e => .runtime e
  | .defect d => .defect d

def message : Failure → String
  | static ds => "Found " ++ toString ds.size ++ " error(s) while scanning and parsing"
  | runtime e => e.message ++ "\n[line " ++ toString e.line ++ "]"
  | write => "Writing the result failed with error: sink is full"
  | defect d => d.message

/-- The exit code of a program that crashes. -/
def crashCode : Nat := 101

/-- The exit code of a program that ends with the failure: data, software and output
errors have their usual codes, a defect that of a crash. -/
def exitCode : Failure → Nat
  | static _ => 65
  | runtime _ => 70
  | write => 74
  | defect _ => crashCode

end Failure

structure Run where
  outcome : Except Failure Value
  sink : Sink
  records : List LogRecord

/-- The line that shows a value, as UTF-8. -/
def Value.line (v : Value) : List UInt8 :=
  (v.display ++ "\n").toUTF8.data.toList

/-- Evaluates a tree and writes its value. -/
def interpret (e : Expr) (sink : Sink) : Run :=
  let evaluation := e.evaluate
  match evaluation.result with
  | .error fault => ⟨.error (.ofFault fault), sink, evaluation.records⟩
  | .ok v =>
    let outcome := if sink.fits v.line then .ok v else .error .write
    ⟨outcome, sink.write v.line, evaluation.records⟩

/-- Reads a text and, unless something was reported, interprets its tree. -/
def run (source : String) (sink : Sink) : Run :=
  let reading := Reading.ofSource source
  match reading.expr, reading.problems with
  | some e, [] =>
    let result := interpret e sink
    { result with records := reading.records ++ result.records }
  | _, _ => ⟨.error (.static reading.diagnostics), sink, reading.records⟩

inductive Step where
  | source (text : String)
  | tree (expr : Expr)

def Step.run : Step → Sink → Run
  | source text => Lox.run text
  | tree e => interpret e

/-- What a session shows of a step. -/
structure Answer where
  outcome : Except Failure Value
  printed : List UInt8

/-- Runs the steps one after another, and gives the sink after the last. -/
def session (sink : Sink) : List Step → List Answer × Sink
  | [] => ([], sink)
  | step :: steps =>
    let r := step.run sink
    let (answers, last) := session r.sink steps
    (⟨r.outcome, r.sink.written.drop sink.written.length⟩ :: answers, last)

end Lox
