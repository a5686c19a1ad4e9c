import Lox.Diagnostic

/-! Log records, and the one that each report leaves. -/

namespace Lox

inductive LogLevel where
  | debug
  | trace
  deriving DecidableEq, Repr

def LogLevel.name : LogLevel → String
  | debug => "DEBUG"
  | trace => "TRACE"

structure LogRecord where
  level : LogLevel
  message : String
  deriving DecidableEq, Repr

def Diagnostic.record (d : Diagnostic) : LogRecord :=
  ⟨.debug, "reported " ++ d.render⟩

/-- The record that reporting a problem leaves. -/
def Problem.record (p : Problem) : LogRecord :=
  p.diagnostic.record

end Lox
