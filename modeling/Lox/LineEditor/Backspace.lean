import Lox.LineEditor.Cluster
import Lox.Text.Bytes

/-! Backspaces in a text. Each takes back the cluster before it, as far as the size of
that cluster is known: sizes are bytes, and one byte holds each of them. -/

namespace Lox.LineEditor

def backspace : Char :=
  '\x08'

/-- What is left of a text after the backspaces so far: the characters and the sizes of
the clusters, both from the last to the first. -/
structure Typed where
  chars : List Char
  sizes : List UInt8

namespace Typed

def empty : Typed :=
  ⟨[], []⟩

/-- A size of 256 bytes or more is cut down to its lowest byte. -/
def type (typed : Typed) (cluster : List Char) : Typed :=
  ⟨cluster.reverse ++ typed.chars, (byteSize cluster).toUInt8 :: typed.sizes⟩

/-- Does nothing when no cluster is left. The bytes in front are those of the last characters. -/
def takeBack (typed : Typed) : Option Typed :=
  match typed.sizes with
  | [] => some typed
  | size :: sizes => (dropBytes size.toNat typed.chars).map (⟨·, sizes⟩)

def next (typed : Typed) (cluster : List Char) : Option Typed :=
  if cluster = [backspace] then typed.takeBack else some (typed.type cluster)

end Typed

/-- `none` if a backspace would leave a part of a character. -/
def applyBackspaces (text : List Char) : Option (List Char) :=
  ((clusters text).foldlM Typed.next .empty).map (·.chars.reverse)

end Lox.LineEditor
