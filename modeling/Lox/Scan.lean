import Lox.Log
import Lox.Segment

/-! Scanning a text: its segments become tokens and problems, each with the line on
which the segment ends, so that a string over several lines carries the line of
its closing quote. The last token marks the end, on the last line. A problem is reported,
and logged, where it is found. -/

namespace Lox

structure Scan where
  tokens : List Token
  problems : List Problem
  deriving DecidableEq

/-- A scan with the records that it left, oldest first. -/
structure Scanning extends Scan where
  records : List LogRecord

namespace Scanning

/-- The end of a text, where the tokens are counted: those before it, and its own. -/
def finish (line count : Nat) : Scanning where
  tokens := [Token.eof line]
  problems := []
  records := [⟨.trace, "scanned " ++ toString (count + 1) ++ " tokens"⟩]

/-- A token, and then what is scanned behind it. -/
def push (later : Scanning) (t : Token) : Scanning :=
  { later with tokens := t :: later.tokens }

/-- The report of a problem, and then what is scanned behind it. -/
def report (later : Scanning) (p : Problem) : Scanning :=
  { later with problems := p :: later.problems, records := p.record :: later.records }

/-- What is scanned of segments when the first begins on `line`, behind `count` tokens. -/
def ofSegments (line count : Nat) : List Segment → Scanning
  | [] => finish line count
  | s :: rest =>
    let line := line + s.lineFeeds
    match s.token? line, s.problem? line with
    | some t, _ => (ofSegments line (count + 1) rest).push t
    | none, some p => (ofSegments line count rest).report p
    | none, none => ofSegments line count rest

end Scanning

def scanning (source : String) : Scanning :=
  .ofSegments 1 0 (Segment.split source.toList)

def scan (source : String) : Scan :=
  (scanning source).toScan

end Lox
