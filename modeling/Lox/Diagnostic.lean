import Lox.Token.Basic

/-! What is reported about a text. A `Problem` is a cause; its `diagnostic` is what
the reader sees: a line, a place on it and a message. Lexical problems name no
place. `Diagnostics` collects reports in their order. -/

namespace Lox

structure Diagnostic where
  line : Nat
  location : String
  message : String
  deriving DecidableEq, Repr

def Diagnostic.render (d : Diagnostic) : String :=
  "[line " ++ toString d.line ++ "] Error" ++ d.location ++ ": " ++ d.message

/-- What a syntax error was missing. -/
inductive Expectation where
  | expression
  | closingParen
  deriving DecidableEq, Repr

inductive Problem where
  | unexpectedCharacter (line : Nat) (char : Char)
  | unterminatedString (line : Nat)
  | unreadableNumber (line : Nat) (text : String)
  | expected (what : Expectation) (found : Token)
  deriving DecidableEq

namespace Problem

def line : Problem → Nat
  | unexpectedCharacter n _ | unterminatedString n | unreadableNumber n _ => n
  | expected _ found => found.line

def location : Problem → String
  | expected _ found => if found.isEof then " at end" else " at '" ++ found.lexeme ++ "'"
  | _ => ""

def message : Problem → String
  | unexpectedCharacter _ _ => "Unexpected character."
  | unterminatedString _ => "Unterminated string."
  | unreadableNumber _ text => "Unable to parse `" ++ text ++ "` to number."
  | expected .expression _ => "Expect expression."
  | expected .closingParen _ => "Expect ')' after expression."

def diagnostic (p : Problem) : Diagnostic :=
  ⟨p.line, p.location, p.message⟩

end Problem

/-- Diagnostics in the order of their reports. -/
structure Diagnostics where
  reports : List Diagnostic
  deriving DecidableEq, Repr

namespace Diagnostics

def empty : Diagnostics :=
  ⟨[]⟩

def report (ds : Diagnostics) (d : Diagnostic) : Diagnostics :=
  ⟨ds.reports ++ [d]⟩

def reportAll (ds : Diagnostics) (ps : List Problem) : Diagnostics :=
  ⟨ds.reports ++ ps.map (·.diagnostic)⟩

def size (ds : Diagnostics) : Nat :=
  ds.reports.length

def isEmpty (ds : Diagnostics) : Bool :=
  ds.reports.isEmpty

def hadError (ds : Diagnostics) : Bool :=
  !ds.isEmpty

theorem reportAll_nil (ds : Diagnostics) : ds.reportAll [] = ds := by
  simp [reportAll]

theorem reportAll_append (ds : Diagnostics) (ps qs : List Problem) :
    ds.reportAll (ps ++ qs) = (ds.reportAll ps).reportAll qs := by
  simp [reportAll]

theorem report_diagnostic (ds : Diagnostics) (p : Problem) :
    ds.report p.diagnostic = ds.reportAll [p] := rfl

end Diagnostics

end Lox
