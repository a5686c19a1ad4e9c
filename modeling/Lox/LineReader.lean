import Lox.Text.Bytes

/-! Readers of lines, by what a conversation wants of them: to be set up before an input, to
give a line or to say why there is none, and to keep a line in their history. What is left of
the input shows how far a reader has come. Where there is no terminal a reader puts out nothing:
no prompt is shown. -/

namespace Lox

/-- What comes of reading a line. -/
inductive Reply where
  | line (text : String)
  | endOfInput
  | interrupted
  | failed (message : String)
  /-- The reader breaks down, and the program with it. -/
  | crashed (message : String)
  deriving DecidableEq, Repr

/-- A reader with states of type `σ`. A line that is read takes something of the input, and
one that is kept takes nothing. -/
structure LineReader (σ : Type) where
  start : (input : List UInt8) → Except String σ
  readLine : (prompt : String) → σ → Reply × σ
  addHistory : (line : String) → σ → Except String σ
  unread : σ → List UInt8
  takes : ∀ {prompt s line after}, readLine prompt s = (.line line, after) →
    (unread after).length < (unread s).length
  keeps : ∀ {line s after}, addHistory line s = .ok after → unread after = unread s

end Lox
