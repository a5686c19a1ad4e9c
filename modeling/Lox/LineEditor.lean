import Lox.LineEditor.Backspace
import Lox.LineReader

/-! The reader of lines that the program is run with; a conversation can have any other. A line
is decoded, the line feed that ends it and a carriage return before that are dropped, and its
backspaces are applied. -/

namespace Lox.LineEditor

def isInside (byte : UInt8) : Bool :=
  byte != lineFeed

/-- The text of a line that a line feed has ended. -/
def dropReturn (text : List Char) : List Char :=
  if text.getLast? = some '\r' then text.dropLast else text

/-- Reads what stands before the next line feed, or all that is left. -/
def readLine (unread : List UInt8) : Reply × List UInt8 :=
  if unread = [] then (.endOfInput, [])
  else
    let rest := unread.dropWhile isInside
    let reply : Reply := match decode (unread.takeWhile isInside) with
      | none => .failed "stream did not contain valid UTF-8"
      | some text =>
        let chars := if rest = [] then text.toList else dropReturn text.toList
        match applyBackspaces chars with
        | none => .crashed "internal error: a backspace cut through a character"
        | some left => .line (String.ofList left)
    (reply, rest.tail)

theorem length_readLine_lt {unread after : List UInt8} {line : String}
    (h : readLine unread = (.line line, after)) : after.length < unread.length := by
  unfold readLine at h
  split at h
  · cases h
  · rename_i hne
    have hafter : (unread.dropWhile isInside).tail = after := congrArg Prod.snd h
    have hlength := congrArg List.length
      (List.takeWhile_append_dropWhile (p := isInside) (l := unread))
    have hpos := List.length_pos_iff.mpr hne
    rw [← hafter, List.length_tail]
    rw [List.length_append] at hlength
    omega

end Lox.LineEditor

namespace Lox

def lineEditor : LineReader (List UInt8) where
  start := .ok
  readLine _ := LineEditor.readLine
  addHistory _ := .ok
  unread := id
  takes := LineEditor.length_readLine_lt
  keeps h := (Except.ok.inj h).symm

end Lox
