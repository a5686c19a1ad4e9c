/-! Where results are written: bytes, possibly with room for so many only. A write
keeps what fits and fails if something does not. -/

namespace Lox

structure Sink where
  /-- How many more bytes fit; `none` for any number. -/
  room : Option Nat
  written : List UInt8
  deriving DecidableEq

namespace Sink

def empty (capacity : Option Nat) : Sink :=
  ⟨capacity, []⟩

def fits (s : Sink) (bytes : List UInt8) : Bool :=
  s.room.all (bytes.length ≤ ·)

/-- Writes what fits. The write succeeds exactly when `fits` holds. -/
def write (s : Sink) (bytes : List UInt8) : Sink :=
  match s.room with
  | none => ⟨none, s.written ++ bytes⟩
  | some n => ⟨some (n - bytes.length), s.written ++ bytes.take n⟩

theorem fits_nil (s : Sink) : s.fits [] = true := by
  cases s with
  | mk room written => cases room <;> simp [fits]

/-- Writing in pieces is writing at once. -/
theorem write_append (s : Sink) (a b : List UInt8) : s.write (a ++ b) = (s.write a).write b := by
  cases s with
  | mk room written =>
    cases room with
    | none => simp [write]
    | some n => simp [write, List.take_append, Nat.sub_sub]

end Sink

end Lox
