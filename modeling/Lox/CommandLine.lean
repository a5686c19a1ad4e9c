import Lox.Interpreter.Basic
import Lox.LineEditor
import Lox.Text.WhiteSpace

/-! The program around the interpreter, up to its input and output: what it prints
and how it ends, given its arguments, the bytes of a script, or the bytes on
standard input. Without a script it holds a conversation: one line after another is
taken from a reader and run on the same console, until no line is left. -/

namespace Lox.CommandLine

inductive Invocation where
  | interactive
  | script (path : String)
  | misuse
  deriving DecidableEq, Repr

def Invocation.ofArgs : List String → Invocation
  | [] => .interactive
  | [path] => .script path
  | _ => .misuse

/-- What a program wrote, and its exit code. -/
structure Report where
  code : Nat
  stdout : List UInt8
  stderr : String
  deriving DecidableEq

def usage : Report :=
  ⟨64, [], "Usage: lox-expr [script]\n"⟩

def version : String :=
  "0.1.0"

/-- The first line of a conversation. -/
def banner : String :=
  "lox-expr, version " ++ version ++ "."

def prompt : String :=
  "> "

/-- A failure on standard error: each diagnostic on a line, anything else as its message. -/
def complaint : Failure → String
  | .static ds => String.join (ds.reports.map fun d => d.render ++ "\n")
  | failure => failure.message ++ "\n"

/-- What a program has written so far. -/
structure Console where
  stdout : Sink
  stderr : String

namespace Console

/-- Output may be of any length. -/
def empty : Console :=
  ⟨.empty none, ""⟩

def print (c : Console) (text : String) : Console :=
  { c with stdout := c.stdout.write (utf8 text) }

def complain (c : Console) (text : String) : Console :=
  { c with stderr := c.stderr ++ text }

def exit (c : Console) (code : Nat) : Report :=
  ⟨code, c.stdout.written, c.stderr⟩

/-- The program ends with an error of its own. -/
def abort (c : Console) (message : String) : Report :=
  (c.complain ("Error: " ++ message ++ "\n")).exit 1

/-- Runs a text. Its failure is shown, and given back. -/
def run (c : Console) (source : String) : Option Failure × Console :=
  let r := Lox.run source c.stdout
  let after := { c with stdout := r.sink }
  match r.outcome with
  | .ok _ => (none, after)
  | .error failure => (some failure, after.complain (complaint failure))

end Console

/-- Runs one text by itself. -/
def execute (source : String) : Report :=
  match Console.empty.run source with
  | (none, console) => console.exit 0
  | (some failure, console) => console.exit failure.exitCode

/-- Runs the script with these bytes; `none` if there is no such file. -/
def script : Option (List UInt8) → Report
  | none => Console.empty.abort "the script cannot be read"
  | some bytes =>
    match decode bytes with
    | none => Console.empty.abort "the script is not valid UTF-8"
    | some source => execute source

/-- What is run of a line. -/
def lineSource (line : String) : String :=
  String.ofList (trimEnd line.toList)

variable {σ : Type}

/-- One round of a conversation: a line is read, kept and run. Its failure is shown and then
forgotten, unless the program crashes. Without a line the program ends. -/
def round (reader : LineReader σ) (s : σ) (console : Console) : Except Report (σ × Console) :=
  match reader.readLine prompt s with
  | (.line line, after) =>
    match reader.addHistory line after with
    | .error message => .error (console.abort message)
    | .ok kept =>
      match console.run (lineSource line) with
      | (some (.defect d), console) => .error (console.exit (Failure.defect d).exitCode)
      | (_, console) => .ok (kept, console)
  | (.endOfInput, _) | (.interrupted, _) => .error (console.exit 0)
  | (.failed message, _) => .error (console.abort message)
  | (.crashed message, _) => .error ((console.complain (message ++ "\n")).exit Failure.crashCode)

theorem length_unread_round_lt {reader : LineReader σ} {s : σ} {console : Console}
    {next : σ × Console} (h : round reader s console = .ok next) :
    (reader.unread next.1).length < (reader.unread s).length := by
  unfold round at h
  split at h
  · rename_i line after hline
    split at h
    · cases h
    · rename_i kept hkept
      have hlt := reader.takes hline
      rw [← reader.keeps hkept] at hlt
      split at h <;> cases h
      exact hlt
  all_goals cases h

/-- A conversation from a state of its reader on. -/
def converse (reader : LineReader σ) (s : σ) (console : Console) : Report :=
  match _h : round reader s console with
  | .error report => report
  | .ok next => converse reader next.1 next.2
termination_by (reader.unread s).length
decreasing_by exact length_unread_round_lt _h

/-- A conversation over an input, by its reader. -/
def interactiveWith (reader : LineReader σ) (input : List UInt8) : Report :=
  let console := Console.empty.print (banner ++ "\n")
  match reader.start input with
  | .error message => console.abort message
  | .ok s => converse reader s console

def interactive (input : List UInt8) : Report :=
  interactiveWith lineEditor input

end Lox.CommandLine
