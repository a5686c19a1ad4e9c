/-! Texts and their UTF-8 bytes. `byteSize` is the size of a text, and `dropBytes` cuts a
number of bytes off one where they end with a character. -/

namespace Lox

def utf8 (text : String) : List UInt8 :=
  text.toUTF8.data.toList

def decode (bytes : List UInt8) : Option String :=
  String.fromUTF8? ⟨bytes.toArray⟩

def lineFeed : UInt8 := 10

def byteSize : List Char → Nat
  | [] => 0
  | c :: text => c.utf8Size + byteSize text

/-- A text without its first `n` bytes; `none` if that cuts through a character. -/
def dropBytes : Nat → List Char → Option (List Char)
  | 0, text => some text
  | _ + 1, [] => none
  | n + 1, c :: text =>
    if c.utf8Size ≤ n + 1 then dropBytes (n + 1 - c.utf8Size) text else none

theorem byteSize_append (text more : List Char) :
    byteSize (text ++ more) = byteSize text + byteSize more := by
  induction text with
  | nil => simp [byteSize]
  | cons c text ih => rw [List.cons_append, byteSize, byteSize, ih, Nat.add_assoc]

theorem dropBytes_append (removed kept : List Char) :
    dropBytes (byteSize removed) (removed ++ kept) = some kept := by
  induction removed with
  | nil => simp [byteSize, dropBytes]
  | cons c removed ih =>
    have hsize : byteSize (c :: removed) = c.utf8Size + byteSize removed := rfl
    obtain ⟨n, hn⟩ : ∃ n, c.utf8Size + byteSize removed = n + 1 :=
      ⟨_, (Nat.succ_pred_eq_of_pos (Nat.add_pos_left c.utf8Size_pos _)).symm⟩
    rw [hsize, hn, List.cons_append, dropBytes, if_pos (by omega), ← hn, Nat.add_sub_cancel_left,
      ih]

end Lox
